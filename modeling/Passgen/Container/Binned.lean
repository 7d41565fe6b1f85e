import Mathlib.Data.List.Basic
import Mathlib.Data.List.GetD
import Mathlib.Tactic.Common
import Passgen.Container.Room

/-!
# Container/Binned — the binned stack is a list

    stack ──push, pop, get, top, foreach──▸ stack
      │                                       │
    Represents                            Represents
      │                                       │
     xs  ─────────── ListStep ─────────────▸ xs'

A stack that has room for its length, and at every position the element of the list, is used for a
while: it stays such a stack, and shows its caller what the list has (`stack_refines_list`).
-/

namespace Passgen

variable {elementSize : ℕ}

/-! ## Operations, and what they show -/

/-- A call.  `junk` is what the allocator leaves in memory; `write` is a caller's store through the
pointer that `get` returns. -/
inductive StackOp (elementSize : ℕ) where
  | push (junk : ℕ → UInt8) (value : Option (Element elementSize))
  | pop (junk : ℕ → UInt8) (copy : Bool)
  | get (pos : ℕ)
  | top
  | foreach (func : List (Element elementSize) → Element elementSize → Element elementSize)
  | write (pos : ℕ) (value : Element elementSize)

/-- What is behind a pointer that is returned, if it is not `NULL`. -/
def Stack.readThrough (stack : Stack elementSize) :
    Option ElementPointer → Except Fault (List (Element elementSize))
  | some p => do
    let element ← stack.read p
    pure [element]
  | none => pure []

/-- A call: the elements that it shows, and the stack after it. -/
def stackStep (stack : Stack elementSize) :
    StackOp elementSize → Except Fault (List (Element elementSize) × Stack elementSize)
  | .push junk value => do
    let (data, stack) ← stackPush junk stack value
    let shown ← stack.readThrough (some data)
    pure (shown, stack)
  | .pop junk copy => do
    let (element, stack) ← stackPop junk stack copy
    pure (element.toList, stack)
  | .get pos => do
    let data ← stackGet stack pos
    let shown ← stack.readThrough data
    pure (shown, stack)
  | .top => do
    let data ← stackTop stack
    let shown ← stack.readThrough data
    pure (shown, stack)
  | .foreach func => stackForeach func stack
  | .write pos value => do
    let data ← stackGet stack pos
    match data with
    | some p =>
      let stack ← stack.write p value
      pure ([], stack)
    | none => pure ([], stack)

/-- A sequence of calls. -/
def stackRun (stack : Stack elementSize) :
    List (StackOp elementSize) →
      Except Fault (List (List (Element elementSize)) × Stack elementSize)
  | [] => pure ([], stack)
  | op :: ops => do
    let (shown, stack) ← stackStep stack op
    let (rest, stack) ← stackRun stack ops
    pure (shown :: rest, stack)

/-- The call on a list.  Without a value, a push adds some element. -/
def ListStep (xs : List (Element elementSize)) :
    StackOp elementSize → List (Element elementSize) → List (Element elementSize) → Prop
  | .push _ value, shown, xs' => ∃ x, (∀ v ∈ value, v = x) ∧ shown = [x] ∧ xs' = xs ++ [x]
  | .pop _ copy, shown, xs' => shown = (if copy then xs.getLast?.toList else []) ∧ xs' = xs.dropLast
  | .get pos, shown, xs' => shown = xs[pos]?.toList ∧ xs' = xs
  | .top, shown, xs' => shown = xs.getLast?.toList ∧ xs' = xs
  | .foreach func, shown, xs' => shown = xs ∧ xs' = xs.mapIdx fun i x => func (xs.take i) x
  | .write pos value, shown, xs' => shown = [] ∧ xs' = xs.set pos value

/-- A sequence of calls on a list. -/
inductive ListRun : List (Element elementSize) → List (StackOp elementSize) →
    List (List (Element elementSize)) → List (Element elementSize) → Prop
  | nil (xs : List (Element elementSize)) : ListRun xs [] [] xs
  | cons {xs xs' xs'' : List (Element elementSize)} {op : StackOp elementSize}
      {ops : List (StackOp elementSize)} {shown : List (Element elementSize)}
      {rest : List (List (Element elementSize))} (step : ListStep xs op shown xs')
      (run : ListRun xs' ops rest xs'') : ListRun xs (op :: ops) (shown :: rest) xs''

/-! ## One operation -/

/-- **The stack of a list**: its elements, at their positions, and room for them. -/
structure Stack.Represents (s : Stack elementSize) (xs : List (Element elementSize)) : Prop where
  len : s.len = xs.length
  elements : ∀ pos < xs.length, s.element pos = xs[pos]?
  room : s.RoomFor s.len

namespace Stack

variable {s : Stack elementSize} {xs : List (Element elementSize)} {n pos : ℕ}

theorem represents_init : (stackInit elementSize).Represents [] where
  len := rfl
  elements pos hpos := absurd hpos (Nat.not_lt_zero pos)
  room := ⟨fun _ hi => absurd hi (Nat.not_lt_zero _), fun _ hi => absurd hi (Nat.not_lt_zero _),
    Nat.zero_le _⟩

variable {R : Prop} (h : s.Represents xs)
include h

/-- A pointer to an element shows it. -/
theorem Represents.read_eq (hpos : pos < xs.length) :
    s.read ⟨pos / 32, pos % 32 * elementSize⟩ = .ok xs[pos] := by
  obtain ⟨x, hx, hread⟩ := h.room.read_eq (h.len ▸ hpos)
  rw [h.elements pos hpos, List.getElem?_eq_getElem hpos] at hx
  exact hread.trans (congrArg Except.ok (Option.some.inj hx).symm)

/-- **A write** replaces one element. -/
theorem Represents.write (hpos : pos < xs.length) (v : Element elementSize) :
    Delivers R (fun s' => s'.Represents (xs.set pos v))
      (s.write ⟨pos / 32, pos % 32 * elementSize⟩ v) := by
  refine (h.room.delivers_write (h.len ▸ hpos) v).mono ?_
  rintro s' ⟨hlen, hself, hkept, hroom⟩
  refine ⟨by rw [hlen, h.len, List.length_set], fun i hi => ?_, hlen ▸ hroom⟩
  rw [List.length_set] at hi
  rcases eq_or_ne i pos with rfl | hne
  · rw [hself, List.getElem?_set_self hi]
  · rw [hkept i hne, List.getElem?_set_ne hne.symm, h.elements i hi]

/-- What is kept, with another length. -/
theorem Represents.kept {s' : Stack elementSize} (hkept : s.Kept n s')
    {ys : List (Element elementSize)} (hlen : ys.length = n)
    (hys : ∀ pos < n, ys[pos]? = if pos < xs.length then xs[pos]? else s'.element pos) :
    (⟨s'.data, n⟩ : Stack elementSize).Represents ys where
  len := hlen.symm
  elements pos hpos := by
    rw [hlen] at hpos
    rw [hys pos hpos]
    split
    · rename_i hlt
      exact (hkept.1 pos (h.len ▸ hlt) hpos).trans (h.elements pos hlt)
    · rfl
  room := ⟨hkept.2.bin, hkept.2.pointers, hkept.2.max⟩

/-- **A push** adds one element. -/
theorem Represents.push (junk : ℕ → UInt8) (value : Option (Element elementSize)) :
    Delivers (Refused elementSize xs.length)
      (fun r => ∃ x, (∀ v ∈ value, v = x) ∧ r.2.Represents (xs ++ [x]) ∧
        r.1 = ⟨xs.length / 32, xs.length % 32 * elementSize⟩)
      (stackPush junk s value) := by
  rw [← h.len]
  refine (reserve_kept junk h.room).bind fun s₁ hkept => ?_
  obtain ⟨x, hx, -⟩ := hkept.2.read_eq (Nat.lt_succ_self s.len)
  have hpushed : (⟨s₁.data, s.len + 1⟩ : Stack elementSize).Represents (xs ++ [x]) := by
    have hlength : (xs ++ [x]).length = s.len + 1 := by
      rw [List.length_append, h.len, List.length_singleton]
    refine h.kept hkept hlength fun pos hpos => ?_
    rcases Nat.lt_or_eq_of_le (Nat.le_of_lt_succ hpos) with hlt | rfl
    · rw [List.getElem?_append_left (h.len ▸ hlt), if_pos (h.len ▸ hlt)]
    · rw [hx, h.len, List.getElem?_concat_length, if_neg (Nat.lt_irrefl _)]
  rw [stackBin, hkept.2.pointer_eq (Nat.lt_succ_self s.len)]
  cases value with
  | none => exact ⟨x, by simp, hpushed, rfl⟩
  | some v =>
    have hpos : s.len < (xs ++ [x]).length := by
      rw [List.length_append, h.len]
      exact Nat.lt_succ_self _
    refine (hpushed.write hpos v).bind fun s₂ hs₂ => ?_
    rw [h.len, List.set_append_right _ _ le_rfl, Nat.sub_self] at hs₂
    exact ⟨v, fun _ hv => (Option.some.inj hv).symm, hs₂, rfl⟩

/-- **A get** returns a pointer to the element, if there is one. -/
theorem Represents.get (pos : ℕ) :
    stackGet s pos = .ok (if pos < xs.length then some ⟨pos / 32, pos % 32 * elementSize⟩
      else none) := by
  rw [stackGet, h.len]
  split
  · rw [if_neg (by omega)]
    rfl
  · rename_i hlt
    rw [if_pos (by omega), h.room.pointer_eq (by rw [h.len]; omega)]
    rfl

theorem Represents.readThrough_get (pos : ℕ) :
    ∃ p, stackGet s pos = .ok p ∧ s.readThrough p = .ok xs[pos]?.toList := by
  refine ⟨_, h.get pos, ?_⟩
  split
  · rename_i hpos
    rw [readThrough, h.read_eq hpos, List.getElem?_eq_getElem hpos]
    rfl
  · rename_i hpos
    rw [List.getElem?_eq_none (by omega)]
    rfl

/-- **The top** is the last element. -/
theorem Represents.top_eq : stackTop s = stackGet s (xs.length - 1) := by
  have hlast : (if s.len > 0 then s.len - 1 else 0) = xs.length - 1 := by
    rw [h.len]
    split <;> omega
  rw [stackTop, hlast]

/-- **A pop** takes the last element. -/
theorem Represents.pop (junk : ℕ → UInt8) (copy : Bool) :
    Delivers (Refused elementSize xs.length)
      (fun r => r.1.toList = (if copy then xs.getLast?.toList else []) ∧
        r.2.Represents xs.dropLast)
      (stackPop junk s copy) := by
  rw [← h.len, stackPop]
  rcases Nat.eq_zero_or_pos s.len with hzero | hpos
  · obtain rfl : xs = [] := List.eq_nil_of_length_eq_zero (h.len ▸ hzero)
    rw [if_pos hzero]
    exact ⟨by cases copy <;> rfl, h⟩
  have hlast : xs.length - 1 < xs.length := Nat.sub_lt (h.len ▸ hpos) Nat.one_pos
  rw [if_neg hpos.ne', h.top_eq, h.get, if_pos hlast]
  refine Delivers.bind (P := fun element : Option (Element elementSize) =>
    element.toList = if copy then xs.getLast?.toList else []) ?_ fun element helement => ?_
  · cases copy with
    | false => rfl
    | true =>
      have hread := h.read_eq hlast
      rw [List.getLast?_eq_getElem?, List.getElem?_eq_getElem hlast]
      change Delivers _ _ (s.read _ >>= fun item => pure (some item))
      rw [hread]
      rfl
  · refine (release_kept junk h.room hpos).bind fun s₁ hkept => ⟨helement, ?_⟩
    refine h.kept hkept (by rw [List.length_dropLast, h.len]) fun pos hlt => ?_
    rw [h.len] at hlt
    rw [if_pos (by omega), List.getElem?_dropLast, if_pos hlt]

/-- A visit of one element. -/
theorem Represents.visit
    (func : List (Element elementSize) → Element elementSize → Element elementSize)
    (visited : List (Element elementSize)) (hpos : pos < xs.length) :
    Delivers R (fun r => r.1 = visited ++ [xs[pos]] ∧
        r.2.Represents (xs.set pos (func visited xs[pos])))
      (stackVisit func visited s (pos / 32) (pos % 32)) := by
  rw [stackVisit, h.room.pointer_eq (h.len ▸ hpos)]
  change Delivers R _ (s.read _ >>= fun element =>
    s.write _ (func visited element) >>= fun s' => pure (visited ++ [element], s'))
  rw [h.read_eq hpos]
  exact (h.write hpos _).bind fun _ hs' => ⟨rfl, hs'⟩

end Stack

/-! ## A foreach -/

section Foreach

variable (func : List (Element elementSize) → Element elementSize → Element elementSize)
  (xs : List (Element elementSize)) {s : Stack elementSize} {R : Prop}

/-- The list with the first `n` elements visited. -/
def visitedList (n : ℕ) : List (Element elementSize) :=
  xs.mapIdx fun i x => if i < n then func (xs.take i) x else x

/-- `n` elements are visited. -/
def Visited (n : ℕ) (r : List (Element elementSize) × Stack elementSize) : Prop :=
  r.1 = xs.take n ∧ r.2.Represents (visitedList func xs n)

theorem visitedList_zero : visitedList func xs 0 = xs := List.mapIdx_eq_iff.mpr fun i => by simp

theorem visitedList_length :
    visitedList func xs xs.length = xs.mapIdx fun i x => func (xs.take i) x := by
  refine List.ext_getElem? fun i => ?_
  rw [visitedList, List.getElem?_mapIdx, List.getElem?_mapIdx]
  by_cases hi : i < xs.length
  · simp only [if_pos hi]
  · rw [List.getElem?_eq_none (Nat.le_of_not_lt hi), Option.map_none, Option.map_none]

theorem visitedList_succ {n : ℕ} (hn : n < xs.length) :
    visitedList func xs (n + 1) = (visitedList func xs n).set n (func (xs.take n) xs[n]) := by
  refine List.ext_getElem? fun i => ?_
  rw [visitedList, visitedList, List.getElem?_mapIdx, List.getElem?_set, List.length_mapIdx,
    List.getElem?_mapIdx]
  by_cases hni : n = i
  · subst hni
    simp [hn]
  · rw [if_neg hni]
    simp only [Nat.lt_succ_iff_lt_or_eq, Ne.symm hni, or_false]

end Foreach

namespace Stack

/-- **A foreach** visits the elements in order. -/
theorem Represents.foreach {s : Stack elementSize} {xs : List (Element elementSize)} {R : Prop}
    (h : s.Represents xs)
    (func : List (Element elementSize) → Element elementSize → Element elementSize) :
    Delivers R (fun r => r.1 = xs ∧ r.2.Represents (xs.mapIdx fun i x => func (xs.take i) x))
      (stackForeach func s) := by
  have hround : ∀ i j, j < 32 → 32 * i + j < xs.length → ∀ r, Visited func xs (32 * i + j) r →
      Delivers R (Visited func xs (32 * i + (j + 1))) (stackVisit func r.1 r.2 i j) := by
    rintro i j hj hlt ⟨_, s'⟩ ⟨rfl, hs'⟩
    have hlt' : 32 * i + j < (visitedList func xs (32 * i + j)).length := by
      rwa [visitedList, List.length_mapIdx]
    have hvisit := hs'.visit (R := R) func (xs.take (32 * i + j)) hlt'
    rw [show (32 * i + j) / 32 = i by omega, show (32 * i + j) % 32 = j by omega] at hvisit
    have hitem : (visitedList func xs (32 * i + j))[32 * i + j] = xs[32 * i + j] := by
      simp [visitedList]
    rw [hitem] at hvisit
    refine hvisit.mono fun r hr => ⟨?_, ?_⟩
    · rw [hr.1, ← Nat.add_assoc, List.take_succ_eq_append_getElem hlt]
    · rw [← Nat.add_assoc, visitedList_succ func xs hlt]
      exact hr.2
  rw [stackForeach]
  dsimp only [stackBinSize]
  refine Delivers.bind (P := Visited func xs (32 * (s.len / 32))) ?_ fun full hfull => ?_
  · refine Delivers.foldlM_range (I := fun i => Visited func xs (32 * i)) (fun i hi r hr => ?_) ?_
    · exact Delivers.foldlM_range (I := fun j => Visited func xs (32 * i + j))
        (fun j hj => hround i j hj (by rw [← h.len]; omega)) hr
    · exact ⟨rfl, (visitedList_zero func xs).symm ▸ h⟩
  · have hall : 32 * (s.len / 32) + s.len % 32 = xs.length := by rw [Nat.div_add_mod, h.len]
    refine (Delivers.foldlM_range (n := s.len % 32)
      (I := fun j => Visited func xs (32 * (s.len / 32) + j))
      (fun j hj => hround _ j (by omega) (by omega)) hfull).mono fun r hr => ?_
    rw [hall] at hr
    exact ⟨hr.1.trans List.take_length, visitedList_length func xs ▸ hr.2⟩

/-! ## A run -/

/-- **Every call** does to the stack what it does to the list. -/
theorem Represents.step {s : Stack elementSize} {xs : List (Element elementSize)}
    (h : s.Represents xs) (op : StackOp elementSize) :
    Delivers (Refused elementSize xs.length)
      (fun r => ∃ xs', ListStep xs op r.1 xs' ∧ r.2.Represents xs') (stackStep s op) := by
  cases op with
  | push junk value =>
    refine (h.push junk value).bind ?_
    rintro ⟨data, s'⟩ ⟨x, hx, hs', hdata⟩
    obtain rfl := hdata
    have hpos : xs.length < (xs ++ [x]).length := by simp
    have hread := hs'.read_eq hpos
    rw [List.getElem_concat_length rfl] at hread
    refine Delivers.bind (P := (· = [x])) ?_ ?_
    · rw [readThrough, hread]
      rfl
    · rintro _ rfl
      exact ⟨_, ⟨x, hx, rfl, rfl⟩, hs'⟩
  | pop junk copy =>
    refine (h.pop junk copy).bind ?_
    rintro ⟨element, s'⟩ ⟨helement, hs'⟩
    exact ⟨_, ⟨helement, rfl⟩, hs'⟩
  | get pos =>
    obtain ⟨p, hp, hread⟩ := h.readThrough_get pos
    rw [stackStep, hp]
    change Delivers _ _ (s.readThrough p >>= _)
    rw [hread]
    exact ⟨_, ⟨rfl, rfl⟩, h⟩
  | top =>
    obtain ⟨p, hp, hread⟩ := h.readThrough_get (xs.length - 1)
    rw [← List.getLast?_eq_getElem?] at hread
    rw [stackStep, h.top_eq, hp]
    change Delivers _ _ (s.readThrough p >>= _)
    rw [hread]
    exact ⟨_, ⟨rfl, rfl⟩, h⟩
  | foreach func => exact (h.foreach func).mono fun r hr => ⟨_, ⟨hr.1, rfl⟩, hr.2⟩
  | write pos value =>
    rw [stackStep, h.get]
    split
    · rename_i hpos
      exact (h.write hpos value).bind fun s' hs' => ⟨_, ⟨rfl, rfl⟩, hs'⟩
    · rename_i hpos
      refine ⟨xs, ⟨rfl, ?_⟩, h⟩
      rw [List.set_eq_of_length_le (Nat.le_of_not_lt hpos)]

end Stack

/-- A call adds at most one element. -/
theorem ListStep.length_le {xs xs' shown : List (Element elementSize)} {op : StackOp elementSize}
    (h : ListStep xs op shown xs') : xs'.length ≤ xs.length + 1 := by
  cases op with
  | push =>
    obtain ⟨x, -, -, rfl⟩ := h
    rw [List.length_append, List.length_singleton]
  | pop =>
    obtain ⟨-, rfl⟩ := h
    rw [List.length_dropLast]
    omega
  | get | top =>
    obtain ⟨-, rfl⟩ := h
    exact Nat.le_succ _
  | foreach =>
    obtain ⟨-, rfl⟩ := h
    rw [List.length_mapIdx]
    exact Nat.le_succ _
  | write =>
    obtain ⟨-, rfl⟩ := h
    rw [List.length_set]
    exact Nat.le_succ _

/-- **A sequence of calls** does to the stack what it does to the list. -/
theorem Stack.Represents.run {s : Stack elementSize} {xs : List (Element elementSize)}
    (h : s.Represents xs) (ops : List (StackOp elementSize)) :
    Delivers (Stack.Refused elementSize (xs.length + ops.length))
      (fun r => ∃ xs', ListRun xs ops r.1 xs' ∧ r.2.Represents xs') (stackRun s ops) := by
  induction ops generalizing s xs with
  | nil => exact ⟨xs, .nil xs, h⟩
  | cons op ops ih =>
    have hlength : (op :: ops).length = ops.length + 1 := List.length_cons
    have hnow : Refused elementSize xs.length →
        Refused elementSize (xs.length + (op :: ops).length) :=
      .imp_right fun hlt => by omega
    refine ((h.step op).refused hnow).bind ?_
    rintro ⟨shown, s'⟩ ⟨xs', hstep, hs'⟩
    have hle := hstep.length_le
    have hlater : Refused elementSize (xs'.length + ops.length) →
        Refused elementSize (xs.length + (op :: ops).length) :=
      .imp_right fun hlt => by omega
    refine ((ih hs').refused hlater).bind ?_
    rintro ⟨rest, s''⟩ ⟨xs'', hrun, hs''⟩
    exact ⟨xs'', .cons hstep hrun, hs''⟩

/-- **The binned stack refines a list.**  For every element size and every sequence of calls of an
initialised stack, nothing goes wrong but an allocation of more bytes than there can be; otherwise
the calls show what the list has, and the stack has the elements of the list, room for them in its
bins, and a pointer for each bin. -/
theorem stack_refines_list (ops : List (StackOp elementSize)) :
    Delivers (ptrdiffMax < 32 * elementSize ∨ ptrdiffMax < ops.length)
      (fun r => ∃ xs, ListRun [] ops r.1 xs ∧ r.2.len = xs.length ∧
        (∀ pos < xs.length, r.2.element pos = xs[pos]?) ∧
        ∀ i, 32 * i < r.2.len → i < r.2.data.length ∧ ∃ block, r.2.bin i = some block ∧
          (if i = 0 then min r.2.len 32 else 32) * elementSize ≤ block.size)
      (stackRun (stackInit elementSize) ops) := by
  have hrun := Stack.represents_init.run ops
  rw [List.length_nil, Nat.zero_add] at hrun
  refine hrun.mono ?_
  rintro r ⟨xs, hlist, h⟩
  refine ⟨xs, hlist, h.len, h.elements, fun i hi => ?_⟩
  obtain ⟨b, hbin, hroom, -⟩ := h.room.bin i hi
  refine ⟨Stack.lt_length_of_bin hbin, b, hbin, (Nat.mul_le_mul_right _ ?_).trans hroom⟩
  have hle := le_stackBinCount r.2.len
  rw [Stack.binRoom]
  split <;> omega

end Passgen
