import Mathlib.Data.List.Basic
import Mathlib.Data.Nat.Log
import Mathlib.Tactic.Common
import Passgen.Memory.Block
import Passgen.Pattern.Tree

/-!
# Container/Stack — the binned stack

    data  ▢  ▢  ▢  ▢                 as many pointers as a power of two
          │  │  └▸ ▣▣▣▢▢▢▢▢          a last bin, of 32
          │  └▸ ▣▣▣▣▣▣▣▣             a full bin
          └▸ ▣▣▣▣▣▣▣▣                the first bin, of a power of two up to 32

Elements are `elementSize` bytes, and lie in bins of 32; only the first bin grows and shrinks with
what is in it.  No capacity is stored.  A push and a pop see from the length alone whether the first
bin or the pointers have to be resized, so that there is always room for what the length says
(`Stack.RoomFor`).
-/

namespace Passgen

open Memory

/-- What can go wrong: an allocation that is refused, or an access outside of what is allocated. -/
inductive Fault where
  | allocation
  | access
  deriving DecidableEq

/-- An access, which is a fault where there is nothing. -/
def access {α : Type} : Option α → Except Fault α
  | some a => .ok a
  | none => .error .access

/-! ## Allocations -/

/-- `PTRDIFF_MAX`: no allocation is larger. -/
def ptrdiffMax : ℕ := 2 ^ 63 - 1

/-- `calloc`, which does not multiply what does not fit. -/
def calloc (count size : ℕ) : Except Fault (Block UInt8) :=
  if count * size ≤ ptrdiffMax then .ok ⟨count * size, fun _ => 0⟩ else .error .allocation

/-- `realloc`, of bytes. -/
def realloc (junk : ℕ → UInt8) (block : Block UInt8) (size : ℕ) : Except Fault (Block UInt8) :=
  if size ≤ ptrdiffMax then .ok (block.resize junk size) else .error .allocation

/-- `realloc`, of pointers, which are eight bytes.  There is nothing behind the new ones. -/
def reallocPointers (data : List (Option (Block UInt8))) (size : ℕ) :
    Except Fault (List (Option (Block UInt8))) :=
  if size ≤ ptrdiffMax then
    .ok (data.take (size / 8) ++ .replicate (size / 8 - data.length) none)
  else .error .allocation

/-! ## The stack -/

/-- `passgen_stack_bin_size`, the `bin_size` of every stack. -/
abbrev stackBinSize : ℕ := 32

/-- `passgen_stack_cap_init`. -/
abbrev stackCapInit : ℕ := 4

/-- `passgen_stack`; `element_size` is its parameter.  `data` has the pointers that are allocated,
and the bins behind those that are not `NULL`.  It has none where `data` is `NULL`. -/
structure Stack (elementSize : ℕ) where
  data : List (Option (Block UInt8))
  len : ℕ

/-- The bytes of an element. -/
abbrev Element (elementSize : ℕ) : Type := Vector UInt8 elementSize

/-- A pointer to an element: the bin, and the bytes in front. -/
structure ElementPointer where
  bin : ℕ
  offset : ℕ

variable {elementSize : ℕ}

/-- `passgen_stack_bin`. -/
def stackBin (pos : ℕ) : ℕ := pos / stackBinSize

/-- The loop of `passgen_stack_bin_count`. -/
def binCountFrom (len power : ℕ) : ℕ :=
  if 0 < power ∧ power < len then binCountFrom len (power * 2) else power
  termination_by len - power
  decreasing_by omega

/-- `passgen_stack_bin_count`. -/
def stackBinCount (len : ℕ) : ℕ := binCountFrom len 1

/-- `passgen_stack_init`. -/
def stackInit (elementSize : ℕ) : Stack elementSize := ⟨[], 0⟩

namespace Stack

/-- `stack->data[i]`, unless it is `NULL` or not there. -/
def bin (stack : Stack elementSize) (i : ℕ) : Option (Block UInt8) := stack.data[i]?.join

/-- `stack->data[i] = block`. -/
def setBin (stack : Stack elementSize) (i : ℕ) (block : Option (Block UInt8)) :
    Except Fault (Stack elementSize) :=
  if i < stack.data.length then .ok { stack with data := stack.data.set i block }
  else .error .access

/-- `stack->data[bin] + item * stack->element_size`. -/
def pointer (stack : Stack elementSize) (bin item : ℕ) : Except Fault ElementPointer := do
  let _ ← access (stack.bin bin)
  pure ⟨bin, sizeT (item * elementSize)⟩

/-- `stack->element_size` bytes copied from a pointer. -/
def read (stack : Stack elementSize) (p : ElementPointer) : Except Fault (Element elementSize) := do
  let block ← access (stack.bin p.bin)
  access (block.load p.offset elementSize)

/-- `stack->element_size` bytes copied to a pointer. -/
def write (stack : Stack elementSize) (p : ElementPointer) (value : Element elementSize) :
    Except Fault (Stack elementSize) := do
  let block ← access (stack.bin p.bin)
  let block ← access (block.store p.offset value)
  stack.setBin p.bin (some block)

/-- `stack->data[0] = realloc(stack->data[0], new_size * stack->element_size)`. -/
def resizeFirst (junk : ℕ → UInt8) (stack : Stack elementSize) (newSize : ℕ) :
    Except Fault (Stack elementSize) := do
  let first ← access (stack.bin 0)
  let first ← realloc junk first (sizeT (newSize * elementSize))
  stack.setBin 0 (some first)

end Stack

/-! ## Operations -/

/-- The part of `passgen_stack_push` that makes room. -/
def stackReserve (junk : ℕ → UInt8) (stack : Stack elementSize) :
    Except Fault (Stack elementSize) := do
  let newBin := stackBin stack.len
  if newBin = 0 then
    let stack ← (if stack.len = 0 then do
        let first ← calloc stackCapInit elementSize
        pure { stack with data := [some first] }
      else pure stack)
    if stackBinCount stack.len = stack.len then
      let newSize := stackBinCount (stack.len + 1)
      stack.resizeFirst junk newSize
    else pure stack
  else
    let maxBin := stackBin (stack.len - 1)
    if newBin ≠ maxBin then
      let currentBins := stackBinCount newBin
      let neededBins := stackBinCount (newBin + 1)
      let stack ← (if currentBins ≠ neededBins then do
          let data ← reallocPointers stack.data (sizeT (neededBins * 8))
          pure { stack with data := data }
        else pure stack)
      let block ← calloc stackBinSize elementSize
      stack.setBin newBin (some block)
    else pure stack

/-- `passgen_stack_push`; without a value, the element is what happens to be there. -/
def stackPush (junk : ℕ → UInt8) (stack : Stack elementSize)
    (value : Option (Element elementSize)) :
    Except Fault (ElementPointer × Stack elementSize) := do
  let reserved ← stackReserve junk stack
  let data ← reserved.pointer (stackBin stack.len) (stack.len % stackBinSize)
  let stack := { reserved with len := stack.len + 1 }
  match value with
  | some value =>
    let stack ← stack.write data value
    pure (data, stack)
  | none => pure (data, stack)

/-- `passgen_stack_get`; `none` is the `NULL` pointer. -/
def stackGet (stack : Stack elementSize) (pos : ℕ) : Except Fault (Option ElementPointer) := do
  if stack.len ≤ pos then pure none
  else
    let p ← stack.pointer (pos / stackBinSize) (pos % stackBinSize)
    pure (some p)

/-- `passgen_stack_top`. -/
def stackTop (stack : Stack elementSize) : Except Fault (Option ElementPointer) :=
  stackGet stack (if stack.len > 0 then stack.len - 1 else 0)

/-- The part of `passgen_stack_pop` that gives room back. -/
def stackRelease (junk : ℕ → UInt8) (stack : Stack elementSize) :
    Except Fault (Stack elementSize) := do
  if stack.len = 1 then
    let _ ← access stack.data[0]?
    pure { stack with data := [] }
  else if stack.len ≤ stackBinSize then
    let entrySize := stackBinCount stack.len
    let newSize := stackBinCount (stack.len - 1)
    if entrySize ≠ newSize then stack.resizeFirst junk newSize
    else pure stack
  else
    let maxBin := stackBin (stack.len - 1)
    let newBin := stackBin (stack.len - 2)
    if maxBin ≠ newBin then stack.setBin maxBin none
    else pure stack

/-- `passgen_stack_pop`, with or without a place to copy the element to; `none` is the `NULL`
pointer. -/
def stackPop (junk : ℕ → UInt8) (stack : Stack elementSize) (copy : Bool) :
    Except Fault (Option (Element elementSize) × Stack elementSize) := do
  if stack.len = 0 then pure (none, stack)
  else
    let element ← (if copy then do
        let item ← stackTop stack
        let item ← access item
        let item ← stack.read item
        pure (some item)
      else pure none)
    let released ← stackRelease junk stack
    pure (element, { released with len := stack.len - 1 })

/-- A call of `func` in `passgen_stack_foreach`: the elements it was called with, and what it leaves
of this one, which may depend on those before. -/
def stackVisit (func : List (Element elementSize) → Element elementSize → Element elementSize)
    (visited : List (Element elementSize)) (stack : Stack elementSize) (bin item : ℕ) :
    Except Fault (List (Element elementSize) × Stack elementSize) := do
  let p ← stack.pointer bin item
  let element ← stack.read p
  let stack ← stack.write p (func visited element)
  pure (visited ++ [element], stack)

/-- `passgen_stack_foreach`. -/
def stackForeach (func : List (Element elementSize) → Element elementSize → Element elementSize)
    (stack : Stack elementSize) :
    Except Fault (List (Element elementSize) × Stack elementSize) := do
  let fullBins := stack.len / stackBinSize
  let full ← (List.range fullBins).foldlM (fun acc i =>
    (List.range stackBinSize).foldlM (fun acc j => stackVisit func acc.1 acc.2 i j) acc) ([], stack)
  let lastBinItems := stack.len % stackBinSize
  (List.range lastBinItems).foldlM (fun acc i => stackVisit func acc.1 acc.2 fullBins i) full

end Passgen
