import Mathlib.Algebra.Ring.Nat
import Mathlib.Data.List.Nodup
import Mathlib.Tactic.Common
import Passgen.Random.Buffer

/-!
# Random/Stream — which positions of a byte stream a run of reads delivers

    reader over a stream ──randomRead_stream──▸ three cursors (base, pos, next)

A source whose callback always returns the full count is a position in an infinite byte stream.
The buffer then holds the stream from `base`, and the source stands at `next`.  On these cursors a
run delivers every position at most once exactly when no request made at `pos > 0` reaches the end
of the buffer (`nodup_reads_iff`): the refill branch of `passgen_random_read` copies from the start
of the buffer, so it hands out `base, base + 1, …` again.
-/

namespace Passgen

/-! ## The source -/

/-- The stretch of the stream `S` from `start`, every byte marked with its position. -/
def stretch (S : ℕ → UInt8) (start size : ℕ) : List (ℕ × UInt8) :=
  (List.range' start size).map fun i => (i, S i)

@[simp] theorem length_stretch (S : ℕ → UInt8) (start size : ℕ) :
    (stretch S start size).length = size := by simp [stretch]

/-- The callback of a source that is the byte stream `S`: its context is the position reached, and
every byte is marked with the position it comes from. -/
def streamRead (S : ℕ → UInt8) : RandomReadFunc ℕ (ℕ × UInt8) := fun next size =>
  (stretch S next size, next + size)

/-- A freshly opened reader: every `passgen_random_*_open` ends in a reload, over whatever the
allocation held. -/
def randomOpen (S : ℕ → UInt8) (fresh : Random ℕ (ℕ × UInt8)) : Random ℕ (ℕ × UInt8) :=
  randomReload (streamRead S) { fresh with context := 0 }

/-- What is asked of a run of reads on the stream `S`: no position of `S` is delivered twice, and
when every request fits the buffer the bytes delivered are a prefix of `S` and `pos` is inside the
buffer after every call. -/
def ReadsOnce (S : ℕ → UInt8) (sizes : List ℕ) (calls : List (RandomCall ℕ (ℕ × UInt8))) : Prop :=
  ((delivered calls).map Prod.fst).Nodup ∧
    ((∀ n ∈ sizes, n ≤ randomBufferLength) →
      (delivered calls).map Prod.snd = (List.range sizes.sum).map S ∧
        ∀ call ∈ calls, call.after.pos < randomBufferLength)

/-- No buffered request made at a position `pos > 0` reaches the end of the buffer.  `pos` is the
sum of the earlier buffered sizes modulo the buffer length; larger requests bypass the buffer. -/
def StaysInside : ℕ → List ℕ → Prop
  | _, [] => True
  | pos, n :: sizes =>
    if n ≤ randomBufferLength then
      (pos = 0 ∨ pos + n < randomBufferLength) ∧
        StaysInside ((pos + n) % randomBufferLength) sizes
    else StaysInside pos sizes

/-! ## The cursors of a reader

The abstract reader knows where the buffered stretch starts, how much of it is used, and where the
source stands; it delivers positions. -/

/-- Where a reader stands on its stream. -/
structure Cursors where
  base : ℕ
  pos : ℕ
  next : ℕ

namespace Cursors

/-- One read: the positions delivered and the cursors afterwards. -/
def read (c : Cursors) (n : ℕ) : List ℕ × Cursors :=
  if n ≤ randomBufferLength then
    if c.pos + n < randomBufferLength then
      (List.range' (c.base + c.pos) n, { c with pos := c.pos + n })
    else
      (List.range' c.base (randomBufferLength - c.pos)
          ++ List.range' c.next (c.pos + n - randomBufferLength),
        ⟨c.next, c.pos + n - randomBufferLength, c.next + randomBufferLength⟩)
  else (List.range' c.next n, { c with next := c.next + n })

/-- All positions a run delivers. -/
def reads (c : Cursors) : List ℕ → List ℕ
  | [] => []
  | n :: sizes => (c.read n).1 ++ (c.read n).2.reads sizes

/-- The source is past the buffered stretch and the position is inside it. -/
structure WellPlaced (c : Cursors) : Prop where
  base_next : c.base + randomBufferLength ≤ c.next
  pos_lt : c.pos < randomBufferLength

theorem WellPlaced.read {c : Cursors} (h : c.WellPlaced) (n : ℕ) : (c.read n).2.WellPlaced := by
  have hb := h.base_next
  have hp := h.pos_lt
  unfold Cursors.read
  split
  · split
    · exact ⟨hb, by assumption⟩
    · exact ⟨le_rfl, by simp only [randomBufferLength] at *; omega⟩
  · exact ⟨by simp only; omega, hp⟩

/-- A buffered read moves the position by its size, around the end of the buffer. -/
theorem read_pos {c : Cursors} (h : c.WellPlaced) {n : ℕ} (hn : n ≤ randomBufferLength) :
    (c.read n).2.pos = (c.pos + n) % randomBufferLength := by
  have hp := h.pos_lt
  unfold Cursors.read
  rw [if_pos hn]
  split
  · rw [Nat.mod_eq_of_lt (by assumption)]
  · simp only [randomBufferLength] at *; omega

/-- **What has been seen so far, against the cursors**: the used part of the buffer is seen, the
rest of it is not, and nothing past the source is. -/
structure Tracks (c : Cursors) (seen : List ℕ) : Prop extends c.WellPlaced where
  nodup : seen.Nodup
  used : ∀ p, c.base ≤ p → p < c.base + c.pos → p ∈ seen
  bound : ∀ p ∈ seen, p < c.base + c.pos ∨ c.base + randomBufferLength ≤ p ∧ p < c.next

theorem nodup_append_range' {seen : List ℕ} {start size : ℕ} (hs : seen.Nodup)
    (h : ∀ p ∈ seen, p < start ∨ start + size ≤ p) : (seen ++ List.range' start size).Nodup :=
  List.nodup_append.mpr ⟨hs, List.nodup_range', fun p hp q hq hpq => by
    have := h p hp
    rw [List.mem_range'_1] at hq
    omega⟩

/-- A read that does not reach the end of a partly used buffer keeps the account. -/
theorem Tracks.read {c : Cursors} {seen : List ℕ} (h : c.Tracks seen) {n : ℕ}
    (hn : randomBufferLength < n ∨ c.pos = 0 ∨ c.pos + n < randomBufferLength) :
    (c.read n).2.Tracks (seen ++ (c.read n).1) := by
  refine { h.toWellPlaced.read n with nodup := ?_, used := ?_, bound := ?_ } <;>
    obtain ⟨⟨hnext, hpos⟩, hnd, hused, hbound⟩ := h <;> unfold Cursors.read
  · split
    · split
      · exact nodup_append_range' hnd fun p hp => by have := hbound p hp; omega
      · have h0 : c.pos = 0 := by omega
        have hz : c.pos + n - randomBufferLength = 0 := by omega
        rw [hz, List.range'_zero, List.append_nil]
        exact nodup_append_range' hnd fun p hp => by have := hbound p hp; omega
    · exact nodup_append_range' hnd fun p hp => by have := hbound p hp; omega
  · intro p
    split
    · split
      · intro h1 h2
        simp only [List.mem_append, List.mem_range'_1] at *
        by_cases hp : p < c.base + c.pos
        · exact .inl (hused p h1 hp)
        · exact .inr (by omega)
      · intro h1 h2
        simp only [List.mem_append, List.mem_range'_1] at *
        exact .inr (.inr (by omega))
    · intro h1 h2
      exact List.mem_append_left _ (hused p h1 h2)
  · intro p
    split
    · split
      · intro hp
        simp only [List.mem_append, List.mem_range'_1] at *
        rcases hp with hp | hp
        · have := hbound p hp; omega
        · omega
      · intro hp
        simp only [List.mem_append, List.mem_range'_1] at *
        rcases hp with hp | hp | hp
        · have := hbound p hp; omega
        · omega
        · omega
    · intro hp
      simp only [List.mem_append, List.mem_range'_1] at *
      rcases hp with hp | hp
      · have := hbound p hp; omega
      · omega

/-- **A read that reaches the end of a partly used buffer delivers `base` again.** -/
theorem Tracks.not_nodup_read {c : Cursors} {seen : List ℕ} (h : c.Tracks seen) {n : ℕ}
    (hn : n ≤ randomBufferLength) (h0 : c.pos ≠ 0) (hend : ¬ c.pos + n < randomBufferLength) :
    ¬ (seen ++ (c.read n).1).Nodup := by
  intro hnd
  have hpos := h.pos_lt
  have hseen : c.base ∈ seen := h.used c.base le_rfl (by omega)
  have hagain : c.base ∈ (c.read n).1 := by
    rw [Cursors.read, if_pos hn, if_neg hend]
    exact List.mem_append_left _ (List.mem_range'_1.mpr (by omega))
  exact (List.nodup_append.mp hnd).2.2 _ hseen _ hagain rfl

/-- **A run delivers every position at most once exactly when it stays inside the buffer.** -/
theorem nodup_reads_iff {c : Cursors} {seen : List ℕ} (h : c.Tracks seen) (sizes : List ℕ) :
    (seen ++ c.reads sizes).Nodup ↔ StaysInside c.pos sizes := by
  induction sizes generalizing c seen with
  | nil => simp [reads, StaysInside, h.nodup]
  | cons n sizes ih =>
    rw [reads, ← List.append_assoc, StaysInside]
    by_cases hn : n ≤ randomBufferLength
    · rw [if_pos hn]
      by_cases hgood : c.pos = 0 ∨ c.pos + n < randomBufferLength
      · rw [ih (h.read (.inr hgood)), read_pos h.toWellPlaced hn]
        exact ⟨fun hs => ⟨hgood, hs⟩, fun hs => hs.2⟩
      · rw [not_or] at hgood
        refine ⟨fun hnd => ?_, fun hs => absurd hs.1 (by tauto)⟩
        exact absurd (List.nodup_append.mp hnd).1 (h.not_nodup_read hn hgood.1 hgood.2)
    · have hstep := h.read (n := n) (.inl (not_le.mp hn))
      have hpos : (c.read n).2.pos = c.pos := by rw [Cursors.read, if_neg hn]
      rw [if_neg hn, ih hstep, hpos]

/-- A run of buffered reads that stays inside the buffer delivers the stream in order. -/
theorem reads_eq_range {c : Cursors} (h : c.WellPlaced)
    (hnext : c.next = c.base + randomBufferLength) {sizes : List ℕ}
    (hsmall : ∀ n ∈ sizes, n ≤ randomBufferLength) (hin : StaysInside c.pos sizes) :
    c.reads sizes = List.range' (c.base + c.pos) sizes.sum := by
  induction sizes generalizing c with
  | nil => rfl
  | cons n sizes ih =>
    have hn : n ≤ randomBufferLength := hsmall n (by simp)
    rw [StaysInside, if_pos hn, ← read_pos h hn] at hin
    obtain ⟨hgood, hrest⟩ := hin
    have hpos := h.pos_lt
    have hfst : (c.read n).1 = List.range' (c.base + c.pos) n
        ∧ (c.read n).2.base + (c.read n).2.pos = c.base + c.pos + n
        ∧ (c.read n).2.next = (c.read n).2.base + randomBufferLength := by
      unfold Cursors.read
      rw [if_pos hn]
      split
      · exact ⟨rfl, by simp only; omega, hnext⟩
      · have h0 : c.pos = 0 := by omega
        have hfull : n = randomBufferLength := by omega
        subst hfull
        simp only [h0, Nat.zero_add, Nat.sub_self, List.range'_zero, List.append_nil,
          Nat.sub_zero, Nat.add_zero]
        exact ⟨trivial, hnext, trivial⟩
    rw [reads, hfst.1, ih (h.read n) hfst.2.2 (fun m hm => hsmall m (by simp [hm])) hrest,
      hfst.2.1, List.range'_append_1, List.sum_cons]

end Cursors

/-! ## The reader follows its cursors -/

section Simulation

variable (S : ℕ → UInt8)

/-- The reader `r` stands at the cursors `c`. -/
structure StandsAt (c : Cursors) (r : Random ℕ (ℕ × UInt8)) : Prop where
  buffer : r.buffer = stretch S c.base randomBufferLength
  pos : r.pos = c.pos
  context : r.context = c.next

theorem drop_take_stretch (start size k m : ℕ) (h : k + m ≤ size) :
    ((stretch S start size).drop k).take m = stretch S (start + k) m := by
  rw [stretch, ← List.map_drop, ← List.map_take, List.drop_range', stretch, Nat.mul_one,
    List.take_range'_of_length_ge (by omega)]

theorem take_stretch (start size m : ℕ) (h : m ≤ size) :
    (stretch S start size).take m = stretch S start m := by
  simpa using drop_take_stretch S start size 0 m (by omega)

/-- A reload buffers the stretch the source stands at. -/
theorem randomReload_stream (r : Random ℕ (ℕ × UInt8)) :
    StandsAt S ⟨r.context, 0, r.context + randomBufferLength⟩ (randomReload (streamRead S) r) where
  buffer := overwrite_of_length_eq (by rw [r.length_buffer]; exact length_stretch S _ _)
  pos := rfl
  context := rfl

/-- A request that ends before the buffer does is served from it. -/
theorem randomRead_inside {c : Cursors} {r : Random ℕ (ℕ × UInt8)} (hr : StandsAt S c r) {n : ℕ}
    (hn : c.pos + n < randomBufferLength) :
    randomRead (streamRead S) r n
      = some (stretch S (c.base + c.pos) n, { r with pos := r.pos + n }) := by
  have hpos := hr.pos
  have hdata : (r.buffer.drop r.pos).take n = stretch S (c.base + c.pos) n := by
    rw [hr.buffer, hpos, drop_take_stretch S _ _ _ _ hn.le]
  rw [randomRead, if_pos (by omega)]
  simp only [hdata]
  rw [if_pos (by omega)]

/-- **One read follows the cursors**, and what it delivers is the stretch they name. -/
theorem randomRead_stream {c : Cursors} {r : Random ℕ (ℕ × UInt8)} (hc : c.WellPlaced)
    (hr : StandsAt S c r) (n : ℕ) :
    ∃ r', randomRead (streamRead S) r n = some ((c.read n).1.map fun i => (i, S i), r')
      ∧ StandsAt S (c.read n).2 r' := by
  have hpos := hc.pos_lt
  unfold Cursors.read
  split
  next hn =>
    split
    next hin =>
      exact ⟨_, randomRead_inside S hr hin, hr.buffer, by rw [hr.pos], hr.context⟩
    next hout =>
      have hreload := randomReload_stream S r
      have hhead : r.buffer.take (randomBufferLength - r.pos)
          = stretch S c.base (randomBufferLength - c.pos) := by
        rw [hr.buffer, hr.pos, take_stretch S _ _ _ (Nat.sub_le _ _)]
      have hrest : c.pos + n - randomBufferLength = n - (randomBufferLength - r.pos) := by
        rw [hr.pos]; omega
      rw [hr.context] at hreload
      rw [randomRead, if_pos hn]
      simp only [hhead]
      rw [if_neg (by rw [hr.pos]; omega), hrest]
      split
      next hmore =>
        rw [randomRead_inside S hreload (by rw [← hrest]; simp only; omega)]
        refine ⟨{ randomReload (streamRead S) r with pos := n - (randomBufferLength - r.pos) },
          ?_, hreload.buffer, rfl, hreload.context⟩
        simp [stretch, hr.pos]
      next hend =>
        have hz : n - (randomBufferLength - r.pos) = 0 := by omega
        rw [hz]
        exact ⟨_, by simp [stretch], hreload⟩
  next hbig =>
    refine ⟨{ r with context := r.context + n }, ?_, hr.buffer, hr.pos, by rw [hr.context]⟩
    rw [randomRead, if_neg hbig]
    simp only [streamRead, length_stretch, if_true, hr.context]
    rfl

/-- **A run follows the cursors**, with the position inside the buffer after every call. -/
theorem randomReads_stream {c : Cursors} {r : Random ℕ (ℕ × UInt8)} (hc : c.WellPlaced)
    (hr : StandsAt S c r) (sizes : List ℕ) :
    ∃ calls, randomReads (streamRead S) r sizes = some calls
      ∧ delivered calls = (c.reads sizes).map (fun i => (i, S i))
      ∧ ∀ call ∈ calls, call.after.pos < randomBufferLength := by
  induction sizes generalizing c r with
  | nil => exact ⟨[], rfl, rfl, by simp⟩
  | cons n sizes ih =>
    obtain ⟨r', hread, hr'⟩ := randomRead_stream S hc hr n
    obtain ⟨calls, hcalls, hdel, hpos⟩ := ih (hc.read n) hr'
    refine ⟨⟨(c.read n).1.map fun i => (i, S i), r'⟩ :: calls, ?_, ?_, ?_⟩
    · simp only [randomReads, hread, Option.bind_some, hcalls, Option.map_some]
    · rw [delivered, List.flatMap_cons, ← delivered, hdel, Cursors.reads, List.map_append]
    · rintro call (_ | ⟨_, hmem⟩)
      · exact hr'.pos.trans_lt (hc.read n).pos_lt
      · exact hpos call hmem

end Simulation

/-! ## Runs from a freshly opened reader -/

/-- The cursors of a freshly opened reader. -/
def openCursors : Cursors := ⟨0, 0, randomBufferLength⟩

theorem tracks_openCursors : openCursors.Tracks [] where
  base_next := le_rfl
  pos_lt := Nat.succ_pos _
  nodup := List.nodup_nil
  used := fun p _ hp => absurd hp (by simp [openCursors])
  bound := by simp

/-- Every sequence of reads on a stream returns, and delivers what the cursors say. -/
theorem randomReads_open (S : ℕ → UInt8) (fresh : Random ℕ (ℕ × UInt8)) (sizes : List ℕ) :
    ∃ calls, randomReads (streamRead S) (randomOpen S fresh) sizes = some calls
      ∧ delivered calls = (openCursors.reads sizes).map (fun i => (i, S i))
      ∧ ∀ call ∈ calls, call.after.pos < randomBufferLength := by
  refine randomReads_stream S tracks_openCursors.toWellPlaced ?_ sizes
  have h := randomReload_stream S { fresh with context := 0 }
  simp only [Nat.zero_add] at h
  exact h

/-- The positions of marked bytes. -/
theorem map_fst_marks (S : ℕ → UInt8) (l : List ℕ) :
    (l.map fun i => (i, S i)).map Prod.fst = l := by
  rw [List.map_map]
  exact List.map_id _

/-- **A run of reads delivers every stream byte at most once, in order, exactly when no buffered
request made inside the buffer reaches its end.** -/
theorem readsOnce_iff_staysInside (S : ℕ → UInt8) (fresh : Random ℕ (ℕ × UInt8))
    (sizes : List ℕ) :
    (∃ calls, randomReads (streamRead S) (randomOpen S fresh) sizes = some calls
      ∧ ReadsOnce S sizes calls) ↔ StaysInside 0 sizes := by
  obtain ⟨calls, hcalls, hdel, hpos⟩ := randomReads_open S fresh sizes
  have hnodup := Cursors.nodup_reads_iff tracks_openCursors sizes
  rw [List.nil_append] at hnodup
  constructor
  · rintro ⟨calls', hcalls', honce⟩
    obtain rfl : calls = calls' := Option.some.inj (hcalls.symm.trans hcalls')
    have h := honce.1
    rw [hdel, map_fst_marks] at h
    exact hnodup.mp h
  · intro hin
    refine ⟨calls, hcalls, ?_, fun hsmall => ⟨?_, hpos⟩⟩
    · rw [hdel, map_fst_marks]
      exact hnodup.mpr hin
    · rw [hdel, Cursors.reads_eq_range tracks_openCursors.toWellPlaced rfl hsmall hin, List.map_map,
        List.range_eq_range']
      rfl

/-- Reading one byte and then the rest of the buffer hands out byte `0` of the stream twice. -/
theorem not_readsOnce_one_rest :
    ¬ ∀ (S : ℕ → UInt8) (fresh : Random ℕ (ℕ × UInt8)) (sizes : List ℕ), (∀ n ∈ sizes, 1 ≤ n) →
      ∃ calls, randomReads (streamRead S) (randomOpen S fresh) sizes = some calls
        ∧ ReadsOnce S sizes calls := by
  intro hall
  let fresh : Random ℕ (ℕ × UInt8) :=
    ⟨List.replicate randomBufferLength (0, 0), List.length_replicate, 0, 0⟩
  obtain ⟨calls, hcalls, honce⟩ := hall (fun _ => 0) fresh [1, 1023] (by simp)
  obtain ⟨calls', hcalls', hdel, -⟩ := randomReads_open (fun _ => 0) fresh [1, 1023]
  obtain rfl : calls = calls' := Option.some.inj (hcalls.symm.trans hcalls')
  have h := honce.1
  rw [hdel, map_fst_marks, ← List.nil_append (openCursors.reads _),
    Cursors.nodup_reads_iff tracks_openCursors] at h
  have hbad := h.2
  simp [StaysInside, openCursors, randomBufferLength] at hbad

end Passgen
