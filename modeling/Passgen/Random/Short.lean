import Mathlib.Data.List.Basic
import Mathlib.Tactic.Common
import Passgen.Random.Buffer

/-!
# Random/Short — sources that come up short

    buffer   r r r r r r r r q q q p q q        r the refill in force, q p older ones
             ╰── filled ──╯
             ╰──── pos ────╯ ▸ the next request

A callback may write less than it is asked for.  The direct path checks the count; a refill does
not, and keeps what an older one has left behind.  Every cell is tagged with the call of the
callback that wrote it, which changes nothing of what is read (`randomRead_map`), and a request is
*fresh* when all it delivers was written for it, or by the refill in force.
-/

namespace Passgen

/-! ## The reader does not look into cells -/

section Map

variable {σ τ α β : Type}

/-- The reader with its cells and its context mapped. -/
def Random.map (f : α → β) (g : σ → τ) (r : Random σ α) : Random τ β where
  buffer := r.buffer.map f
  length_buffer := by rw [List.length_map, r.length_buffer]
  pos := r.pos
  context := g r.context

@[simp] theorem Random.pos_map (f : α → β) (g : σ → τ) (r : Random σ α) :
    (r.map f g).pos = r.pos := rfl

@[simp] theorem Random.buffer_map (f : α → β) (g : σ → τ) (r : Random σ α) :
    (r.map f g).buffer = r.buffer.map f := rfl

@[simp] theorem Random.context_map (f : α → β) (g : σ → τ) (r : Random σ α) :
    (r.map f g).context = g r.context := rfl

variable {f : α → β} {g : σ → τ} {read : RandomReadFunc σ α} {read' : RandomReadFunc τ β}

theorem randomReload_map (h : ∀ c n, read' (g c) n = ((read c n).1.map f, g (read c n).2))
    (r : Random σ α) : randomReload read' (r.map f g) = (randomReload read r).map f g := by
  simp only [randomReload, Random.map, h, overwrite, List.map_append, List.map_take, List.map_drop,
    List.length_map]

/-- **The reader commutes with maps of its cells.** -/
theorem randomRead_map (h : ∀ c n, read' (g c) n = ((read c n).1.map f, g (read c n).2))
    (r : Random σ α) (bytes : ℕ) :
    randomRead read' (r.map f g) bytes =
      (randomRead read r bytes).map fun p => (p.1.map f, p.2.map f g) := by
  induction r, bytes using randomRead.induct read with
  | case1 r bytes hsmall left =>
    rename_i hlt
    rw [randomRead_of_lt read hlt, randomRead_of_lt read' hlt, Option.map_some]
    simp only [Random.map, List.map_take, List.map_drop]
  | case2 r bytes hsmall left hlt hne =>
    rename_i ih
    rw [randomRead_of_gt read (by omega) hsmall,
      randomRead_of_gt read' (by rw [Random.pos_map]; omega) hsmall,
      randomReload_map h, Random.pos_map, ih, Option.map_map, Option.map_map]
    simp only [Function.comp_def, List.map_append, Random.buffer_map, List.map_take]
    rfl
  | case3 r bytes hsmall left hlt =>
    rename_i heq
    rw [randomRead_of_eq read (by omega),
      randomRead_of_eq read' (by rw [Random.pos_map]; omega), Option.map_some,
      randomReload_map h, Random.buffer_map, List.map_take]
  | case4 r data context hlarge hread =>
    rw [randomRead_direct read (by omega), randomRead_direct read' (by omega), Random.context_map,
      h, hread]
    simp [Random.map]
  | case5 r bytes hlarge data context hread hne =>
    rw [randomRead_direct read (by omega), randomRead_direct read' (by omega), Random.context_map,
      h, hread]
    simp [hne]

end Map

/-! ## Tags -/

section Tags

variable {σ : Type}

/-- The context of a source, with the number of calls made to it, which of them was the last refill,
and how much that has written. -/
structure Trace (σ : Type) where
  context : σ
  calls : ℕ
  refill : ℕ
  filled : ℕ

/-- The callback, with every byte tagged with the call that writes it.  Only refills ask for exactly
the length of the buffer. -/
def tagged (read : RandomReadFunc σ UInt8) : RandomReadFunc (Trace σ) (Option ℕ × UInt8) :=
  fun trace size =>
    let (data, context) := read trace.context size
    (data.map fun byte => (some trace.calls, byte),
      if size = randomBufferLength then ⟨context, trace.calls + 1, trace.calls, data.length⟩
      else { trace with context, calls := trace.calls + 1 })

/-- A reader as it is allocated: no byte of its buffer was written by the source. -/
def untouched (r : Random σ UInt8) : Random (Trace σ) (Option ℕ × UInt8) :=
  r.map (none, ·) fun context => ⟨context, 0, 0, 0⟩

/-- A reader as it is opened. -/
def randomOpened (read : RandomReadFunc σ UInt8) (r : Random σ UInt8) :
    Random (Trace σ) (Option ℕ × UInt8) :=
  randomReload (tagged read) (untouched r)

/-- The reader without its tags. -/
def untag (r : Random (Trace σ) (Option ℕ × UInt8)) : Random σ UInt8 := r.map Prod.snd Trace.context

theorem tagged_snd (read : RandomReadFunc σ UInt8) (trace : Trace σ) (size : ℕ) :
    read trace.context size =
      ((tagged read trace size).1.map Prod.snd, (tagged read trace size).2.context) := by
  have hdata : ((tagged read trace size).1).map Prod.snd = (read trace.context size).1 := by
    simp [tagged, Function.comp_def]
  have hcontext : (tagged read trace size).2.context = (read trace.context size).2 := by
    rw [tagged]
    dsimp only
    split <;> rfl
  rw [hdata, hcontext]

/-- **The tags change nothing.** -/
theorem randomRead_untag (read : RandomReadFunc σ UInt8) (r : Random (Trace σ) (Option ℕ × UInt8))
    (bytes : ℕ) :
    randomRead read (untag r) bytes =
      (randomRead (tagged read) r bytes).map fun p => (p.1.map Prod.snd, untag p.2) :=
  randomRead_map (tagged_snd read) r bytes

theorem untag_randomOpened (read : RandomReadFunc σ UInt8) (r : Random σ UInt8) :
    untag (randomOpened read r) = randomReload read r := by
  rw [randomOpened, untag, ← randomReload_map (tagged_snd read)]
  congr 1
  rcases r with ⟨buffer, hbuffer, pos, context⟩
  simp [untouched, Random.map, Function.comp_def]

/-! ## Fresh requests -/

/-- The calls that should have written what a request delivers: its own, or the refills it is served
from. -/
def origin (r : Random (Trace σ) (Option ℕ × UInt8)) (bytes : ℕ) : List ℕ :=
  let left := randomBufferLength - r.pos
  if randomBufferLength < bytes then List.replicate bytes r.context.calls
  else if bytes < left then List.replicate bytes r.context.refill
  else List.replicate left r.context.refill ++ List.replicate (bytes - left) r.context.calls

/-- Every byte the request delivers was written for it, or by the refill it is served from;
otherwise the process is aborted. -/
def Fresh (read : RandomReadFunc σ UInt8) (r : Random (Trace σ) (Option ℕ × UInt8)) (bytes : ℕ) :
    Prop :=
  ∀ data r', randomRead (tagged read) r bytes = some (data, r') →
    data.map Prod.fst = (origin r bytes).map some

/-- The refills a buffered request is served from have written as much as it takes.  One that
reaches the end of the buffer takes what is left from the start of it, and the rest from a new
refill. -/
def Supplied (read : RandomReadFunc σ UInt8) (r : Random (Trace σ) (Option ℕ × UInt8)) (bytes : ℕ) :
    Prop :=
  let left := randomBufferLength - r.pos
  bytes ≤ randomBufferLength →
    if bytes < left then bytes = 0 ∨ r.pos + bytes ≤ r.context.filled
    else left ≤ r.context.filled ∧
      bytes - left ≤ (read r.context.context randomBufferLength).1.length

/-- `P` holds of every request of a run, up to where it is aborted. -/
def EachRequest {α : Type} (read : RandomReadFunc σ α) (P : Random σ α → ℕ → Prop) :
    Random σ α → List ℕ → Prop
  | _, [] => True
  | r, bytes :: sizes => P r bytes ∧
    ∀ data r', randomRead read r bytes = some (data, r') → EachRequest read P r' sizes

/-! ## What is in the buffer -/

/-- The first `filled` cells are those the last refill has written. -/
structure Marked (r : Random (Trace σ) (Option ℕ × UInt8)) : Prop where
  filled_le : r.context.filled ≤ randomBufferLength
  refill_lt : r.context.refill < r.context.calls
  tags : ∃ rest, r.buffer.map Prod.fst =
    List.replicate r.context.filled (some r.context.refill) ++ rest ∧ some r.context.refill ∉ rest
  older : ∀ k, some k ∈ r.buffer.map Prod.fst → k < r.context.calls

variable {read : RandomReadFunc σ UInt8} {r r' : Random (Trace σ) (Option ℕ × UInt8)} {bytes : ℕ}
  {data : List (Option ℕ × UInt8)}

theorem tags_reload (r : Random (Trace σ) (Option ℕ × UInt8)) :
    (randomReload (tagged read) r).buffer.map Prod.fst =
      (List.replicate (read r.context.context randomBufferLength).1.length
        (some r.context.calls)).take randomBufferLength ++
      (r.buffer.map Prod.fst).drop (read r.context.context randomBufferLength).1.length := by
  simp only [randomReload, tagged, overwrite, List.map_append, List.map_take, List.map_drop,
    List.map_map, List.length_map, r.length_buffer]
  congr 2
  exact List.map_const' ..

theorem tags_tagged (trace : Trace σ) (size : ℕ) :
    (tagged read trace size).1.map Prod.fst =
      List.replicate (tagged read trace size).1.length (some trace.calls) := by
  simp only [tagged, List.map_map, List.length_map]
  exact List.map_const' ..

theorem context_reload (r : Random (Trace σ) (Option ℕ × UInt8)) :
    (randomReload (tagged read) r).context =
      ⟨(read r.context.context randomBufferLength).2, r.context.calls + 1, r.context.calls,
        (read r.context.context randomBufferLength).1.length⟩ := by
  simp [randomReload, tagged]

theorem tagged_direct {trace : Trace σ} {size : ℕ} (h : randomBufferLength < size) :
    (tagged read trace size).2 =
      { trace with context := (read trace.context size).2, calls := trace.calls + 1 } :=
  if_neg (Nat.ne_of_gt h)

/-- What is served from a buffer that was just refilled. -/
theorem randomRead_reload (hsmall : bytes ≤ randomBufferLength) :
    ∃ r', randomRead (tagged read) (randomReload (tagged read) r) bytes =
      some ((randomReload (tagged read) r).buffer.take bytes, r') := by
  rcases Nat.lt_or_eq_of_le hsmall with hlt | heq
  · exact ⟨_, randomRead_of_lt _ hlt⟩
  · exact ⟨_, randomRead_of_eq _ heq⟩

/-- A stretch of cells that begins with the marked ones. -/
theorem take_drop_eq_replicate_iff {β : Type} {a : β} {filled start size : ℕ} {rest : List β}
    (hrest : a ∉ rest) (hsize : start + size ≤ filled + rest.length) :
    ((List.replicate filled a ++ rest).drop start).take size = List.replicate size a ↔
      size = 0 ∨ start + size ≤ filled := by
  constructor
  · intro h
    rcases size with _ | size
    · exact .inl rfl
    · refine .inr (Nat.le_of_not_lt fun hlt => hrest ?_)
      have hlast := congrArg (·[size]?) h
      simp only [List.getElem?_take_of_lt (Nat.lt_succ_self size), List.getElem?_drop,
        List.getElem?_replicate_of_lt (Nat.lt_succ_self size)] at hlast
      rw [List.getElem?_append_right (by rw [List.length_replicate]; omega)] at hlast
      exact List.mem_of_getElem? hlast
  · rintro (rfl | hle)
    · rfl
    · rw [List.drop_append_of_le_length (by rw [List.length_replicate]; omega),
        List.take_append_of_le_length (by rw [List.length_drop, List.length_replicate]; omega),
        List.drop_replicate, List.take_replicate, Nat.min_eq_left (by omega)]

/-- The same, for a stretch at the start. -/
theorem take_eq_replicate_iff {β : Type} {a : β} {filled size : ℕ} {rest : List β}
    (hrest : a ∉ rest) (hsize : size ≤ filled + rest.length) :
    (List.replicate filled a ++ rest).take size = List.replicate size a ↔ size ≤ filled := by
  have h :=
    @take_drop_eq_replicate_iff β a filled 0 size rest hrest ((Nat.zero_add size).trans_le hsize)
  rw [List.drop_zero, Nat.zero_add] at h
  exact h.trans ⟨fun h => h.elim (fun h => h ▸ Nat.zero_le _) id, .inr⟩

theorem append_eq_append_iff_of_length {β : Type} {as as' bs bs' : List β}
    (h : as.length = as'.length) : as ++ bs = as' ++ bs' ↔ as = as' ∧ bs = bs' :=
  ⟨fun heq => List.append_inj heq h, fun ⟨has, hbs⟩ => by rw [has, hbs]⟩

variable (hcount : ∀ c n, (read c n).1.length ≤ n)
include hcount

/-- **A refill marks what it writes**, over cells that are older than it. -/
theorem marked_reload (holder : ∀ k, some k ∈ r.buffer.map Prod.fst → k < r.context.calls) :
    Marked (randomReload (tagged read) r) := by
  have hle := hcount r.context.context randomBufferLength
  have htags : (randomReload (tagged read) r).buffer.map Prod.fst = _ := tags_reload r
  rw [List.take_of_length_le (by rwa [List.length_replicate])] at htags
  constructor
  · rw [context_reload]
    exact hle
  · rw [context_reload]
    exact Nat.lt_succ_self _
  · rw [context_reload, htags]
    refine ⟨_, rfl, fun hmem => ?_⟩
    exact Nat.lt_irrefl _ (holder _ (List.drop_subset _ _ hmem))
  · rw [context_reload, htags]
    intro k hk
    rcases List.mem_append.mp hk with hk | hk
    · obtain rfl := Option.some.inj (List.eq_of_mem_replicate hk)
      exact Nat.lt_succ_self _
    · exact Nat.lt_succ_of_lt (holder k (List.drop_subset _ _ hk))

/-- **A request keeps the marks.** -/
theorem Marked.kept (h : Marked r) (hread : randomRead (tagged read) r bytes = some (data, r')) :
    Marked r' := by
  induction r, bytes using randomRead.induct (tagged read) generalizing data with
  | case1 r bytes hsmall left =>
    rename_i hlt
    rw [randomRead_of_lt _ hlt] at hread
    obtain ⟨-, rfl⟩ := Prod.mk.inj (Option.some.inj hread)
    exact ⟨h.filled_le, h.refill_lt, h.tags, h.older⟩
  | case2 r bytes hsmall left hlt hne =>
    rename_i ih
    rw [randomRead_of_gt _ (by omega) hsmall, Option.map_eq_some_iff] at hread
    obtain ⟨⟨rest, last⟩, hrest, hpair⟩ := hread
    obtain ⟨-, rfl⟩ := Prod.mk.inj hpair
    exact ih (marked_reload hcount h.older) hrest
  | case3 r bytes hsmall left hlt =>
    rw [randomRead_of_eq _ (by omega)] at hread
    obtain ⟨-, rfl⟩ := Prod.mk.inj (Option.some.inj hread)
    exact marked_reload hcount h.older
  | case4 r written context hlarge htagged =>
    rw [randomRead_direct _ (by omega), htagged, if_pos rfl] at hread
    obtain ⟨-, rfl⟩ := Prod.mk.inj (Option.some.inj hread)
    obtain rfl : context = _ := (congrArg Prod.snd htagged).symm.trans (tagged_direct (by omega))
    exact ⟨h.filled_le, Nat.lt_succ_of_lt h.refill_lt, h.tags,
      fun k hk => Nat.lt_succ_of_lt (h.older k hk)⟩
  | case5 r bytes hlarge written context htagged hne =>
    rw [randomRead_direct _ (by omega), htagged, if_neg hne] at hread
    exact absurd hread (by simp)

omit hcount in
/-- A request that is answered is fresh by its answer. -/
theorem fresh_iff_of_read (hread : randomRead (tagged read) r bytes = some (data, r')) :
    Fresh read r bytes ↔ data.map Prod.fst = (origin r bytes).map some := by
  refine ⟨fun hfresh => hfresh data r' hread, fun heq data' r'' hread' => ?_⟩
  obtain ⟨rfl, -⟩ := Prod.mk.inj (Option.some.inj (hread.symm.trans hread'))
  exact heq

omit hcount in
/-- The direct path compares the count, and aborts. -/
theorem fresh_of_gt (hlarge : randomBufferLength < bytes) : Fresh read r bytes := by
  intro data r' hread
  rw [randomRead_direct _ hlarge] at hread
  split at hread
  · rename_i hfull
    obtain ⟨rfl, -⟩ := Prod.mk.inj (Option.some.inj hread)
    rw [origin, if_pos hlarge, List.map_replicate, tags_tagged, hfull]
  · exact absurd hread (by simp)

/-- **One request is fresh exactly when it is supplied.** -/
theorem Marked.fresh_iff (h : Marked r) (bytes : ℕ) :
    Fresh read r bytes ↔ Supplied read r bytes := by
  have hlength := r.length_buffer
  obtain ⟨rest, htags, hrest⟩ := h.tags
  have hrestlength : r.context.filled + rest.length = randomBufferLength := by
    have := congrArg List.length htags
    simpa [hlength] using this.symm
  rcases Nat.lt_or_ge randomBufferLength bytes with hlarge | hsmall
  · exact iff_of_true (fresh_of_gt hlarge) fun hsmall => absurd hsmall (Nat.not_le_of_lt hlarge)
  rcases Nat.lt_trichotomy bytes (randomBufferLength - r.pos) with hlt | heq | hgt
  · rw [fresh_iff_of_read (randomRead_of_lt _ hlt), origin, if_neg (Nat.not_lt_of_le hsmall),
      if_pos hlt, Supplied, if_pos hlt, List.map_take, List.map_drop, htags, List.map_replicate,
      take_drop_eq_replicate_iff hrest (by omega)]
    exact ⟨fun h _ => h, fun h => h hsmall⟩
  · rw [fresh_iff_of_read (randomRead_of_eq _ heq), origin, if_neg (Nat.not_lt_of_le hsmall),
      if_neg (Nat.not_lt_of_le heq.ge), Supplied, if_neg (Nat.not_lt_of_le heq.ge), ← heq,
      Nat.sub_self, List.replicate_zero, List.append_nil, List.map_take, htags, List.map_replicate,
      take_eq_replicate_iff hrest (by omega)]
    exact ⟨fun h _ => ⟨h, Nat.zero_le _⟩, fun h => (h hsmall).1⟩
  · have hreload := marked_reload (r := r) hcount h.older
    obtain ⟨rest', htags', hrest'⟩ := hreload.tags
    have hrestlength' := congrArg List.length htags'
    rw [context_reload] at htags' hrest' hrestlength'
    dsimp only at htags' hrest' hrestlength'
    simp only [List.length_map, Random.length_buffer, List.length_append, List.length_replicate]
      at hrestlength'
    obtain ⟨r', hread⟩ : ∃ r', randomRead (tagged read) (randomReload (tagged read) r)
        (bytes - (randomBufferLength - r.pos)) = some (_, r') := randomRead_reload (by omega)
    have hwhole := randomRead_of_gt (tagged read) hgt hsmall
    rw [hread, Option.map_some] at hwhole
    rw [fresh_iff_of_read hwhole, origin, if_neg (Nat.not_lt_of_le hsmall),
      if_neg (Nat.not_lt_of_le hgt.le), Supplied, if_neg (Nat.not_lt_of_le hgt.le), List.map_append,
      List.map_append, List.map_take,
      List.map_take, htags, htags', List.map_replicate, List.map_replicate,
      append_eq_append_iff_of_length (by simp; omega), take_eq_replicate_iff hrest (by omega),
      take_eq_replicate_iff hrest' (by omega)]
    exact ⟨fun h _ => h, fun h => h hsmall⟩

omit hcount in
theorem eachRequest_congr {P Q : Random (Trace σ) (Option ℕ × UInt8) → ℕ → Prop}
    {I : Random (Trace σ) (Option ℕ × UInt8) → Prop}
    (hPQ : ∀ r bytes, I r → (P r bytes ↔ Q r bytes))
    (hI : ∀ r bytes data r', I r → randomRead (tagged read) r bytes = some (data, r') → I r')
    (sizes : List ℕ) (h : I r) :
    EachRequest (tagged read) P r sizes ↔ EachRequest (tagged read) Q r sizes := by
  induction sizes generalizing r with
  | nil => exact Iff.rfl
  | cons bytes sizes ih =>
    rw [EachRequest, EachRequest, hPQ r bytes h]
    refine and_congr_right fun _ => forall_congr' fun data => forall_congr' fun r' => ?_
    exact imp_congr_right fun hread => ih (hI r bytes data r' h hread)

omit hcount in
theorem older_untouched (r : Random σ UInt8) :
    ∀ k, some k ∈ (untouched r).buffer.map Prod.fst → k < (untouched r).context.calls := by
  intro k hk
  simp [untouched, Random.map] at hk

/-- **No stale byte is delivered exactly when every buffered request is supplied**, whatever the
source writes, the sizes of the requests and what the reader is allocated over. -/
theorem eachRequest_fresh_iff (r : Random σ UInt8) (sizes : List ℕ) :
    EachRequest (tagged read) (Fresh read) (randomOpened read r) sizes ↔
      EachRequest (tagged read) (Supplied read) (randomOpened read r) sizes :=
  eachRequest_congr (I := Marked) (fun _ bytes hr => hr.fresh_iff hcount bytes)
    (fun _ _ _ _ hr hread => hr.kept hcount hread) sizes (marked_reload hcount (older_untouched r))

end Tags

/-- A reader as it may be allocated. -/
def allocatedRandom : Random Unit UInt8 :=
  ⟨List.replicate randomBufferLength 7, List.length_replicate, 0, ()⟩

/-- A source that writes at most 700 bytes. -/
def shortRead : RandomReadFunc Unit UInt8 := fun c n => (List.replicate (min n 700) 0, c)

theorem length_shortRead (c : Unit) (n : ℕ) : (shortRead c n).1.length = min n 700 :=
  List.length_replicate ..

/-- A second request goes past the end of the buffer: it is supplied from both refills. -/
theorem eachRequest_fresh_shortRead :
    EachRequest (tagged shortRead) (Fresh shortRead) (randomOpened shortRead allocatedRandom)
      [600, 600] := by
  have hcontext := @context_reload Unit shortRead (untouched allocatedRandom)
  have hfilled : (randomOpened shortRead allocatedRandom).context.filled = 700 := by
    rw [randomOpened, hcontext]
    exact length_shortRead () randomBufferLength
  refine (eachRequest_fresh_iff (fun c n => (length_shortRead c n).trans_le (Nat.min_le_left ..))
    allocatedRandom [600, 600]).mpr
      ⟨fun _ => ?_, fun data r' h => ⟨fun _ => ?_, fun _ _ _ => trivial⟩⟩
  · rw [if_pos (by decide), hfilled]
    exact .inr (by decide)
  · rw [randomRead_of_lt _ (by decide)] at h
    obtain ⟨-, rfl⟩ := Prod.mk.inj (Option.some.inj h)
    rw [if_neg (by decide), hfilled, length_shortRead]
    decide

/-- **A refill that comes up short is not noticed**: from a source that writes nothing, one byte is
read, which was in the buffer before. -/
theorem not_eachRequest_fresh_empty :
    ¬∀ {σ : Type} (read : RandomReadFunc σ UInt8), (∀ c n, (read c n).1.length ≤ n) →
      ∀ (r : Random σ UInt8) (sizes : List ℕ),
        EachRequest (tagged read) (Fresh read) (randomOpened read r) sizes := by
  intro h
  have hcount : ∀ (c : Unit) (n : ℕ), (([], c) : List UInt8 × Unit).1.length ≤ n :=
    fun _ n => Nat.zero_le n
  have hfresh := (h (fun c _ => ([], c)) hcount allocatedRandom [1]).1
  have hmarked := marked_reload hcount (older_untouched allocatedRandom)
  have hsupplied := (hmarked.fresh_iff hcount 1).mp hfresh (by decide)
  rw [if_pos (by decide), context_reload] at hsupplied
  simp at hsupplied

end Passgen
