import Passgen.Container.Insert
import Passgen.Slots.Represents

/-!
# Container/Finite — the hash map as a finite map

What the map is for is a finite map from keys up to `equal` to entries (`finiteStep`).  A map in
order refines it (`Refines`), and stays a refinement under every operation but one: an insertion of
a key that sits at its second position only, while there is room at the first one, stores a second
entry of that key and answers that there was none (`step_spec`).  The answers of a whole run
are therefore those of a finite map **iff** no insertion of it overlooks its key (`answers_iff`).
-/

namespace Passgen

open Hashmap

variable {κ ν : Type*} {context : HashmapContext κ} {map map' : Hashmap κ ν} {key : κ} {value : ν}
  {fuel : ℕ} {entry : HashmapEntry κ ν} {result : Option (HashmapEntry κ ν)}

/-! ## Removing and looking up -/

/-- **Looking up** finds the entry of the key. -/
theorem hashmapLookup_eq_some_iff (h : map.Ok context) :
    hashmapLookup context map key = some entry ↔
      entry ∈ map.entries ∧ context.equal entry.key key = true := by
  have hlookup : hashmapLookup context map key =
      (foundAt context map key true).or (foundAt context map key false) := by
    rw [hashmapLookup]
    split
    · rename_i hnull
      simp [foundAt, slot, hnull]
    · simp
  rw [hlookup]
  constructor
  · intro hfound
    rcases Option.or_eq_some_iff.mp hfound with hfound | ⟨-, hfound⟩
    · exact mem_of_foundAt hfound
    · exact mem_of_foundAt hfound
  · rintro ⟨hmem, hequal⟩
    obtain ⟨first, hfound⟩ := h.placed.found hmem hequal
    cases first with
    | true => exact Option.or_eq_some_iff.mpr (Or.inl hfound)
    | false =>
      rcases hfirst : foundAt context map key true with _ | e
      · simp [hfound]
      · obtain ⟨hmem', hequal'⟩ := mem_of_foundAt hfirst
        have heq := h.unique hmem' hmem
          (context.equivalence.trans hequal' (context.equivalence.symm hequal))
        simp [heq]

theorem removeAt_spec {first : Bool} (h : map.Ok context)
    (hrun : removeAt context map key first = some (map', result)) :
    ∃ old rest, result = some old ∧ context.equal old.key key = true ∧
      map.entries.Perm (old :: rest) ∧ map'.entries.Perm rest ∧ map'.Ok context := by
  obtain ⟨old, hfound, heq⟩ := Option.bind_eq_some_iff.mp hrun
  simp only [Option.some.injEq, Prod.mk.injEq] at heq
  obtain ⟨rfl, rfl⟩ := heq
  obtain ⟨hslot, hequal⟩ := foundAt_eq_some_iff.mp hfound
  obtain ⟨_, hold, rfl, -⟩ := Slots.taken (slot_eq_some_iff.mp hslot)
  have hdistinct := (hold.pairwise_iff fun h => HashmapContext.equal_symm h).mp h.distinct
  refine ⟨old, _, rfl, hequal, hold, List.Perm.refl _, ?_, ?_, ?_⟩
  · exact h.placed.write fun entry hentry => absurd hentry (by simp)
  · exact (List.pairwise_cons.mp hdistinct).2
  · have hlen : map.len = _ := h.len_eq.trans hold.length_eq
    rw [hlen]
    rfl

/-- **Removing** drops the entry of the key, if it has one. -/
theorem remove_spec (h : map.Ok context)
    (hrun : hashmapRemove context map key = some (map', result)) :
    result = none ∧ map' = map ∧ map.Absent context key ∨
      ∃ old rest, result = some old ∧ context.equal old.key key = true ∧
        map.entries.Perm (old :: rest) ∧ map'.entries.Perm rest ∧ map'.Ok context := by
  have hnone : ∀ first, removeAt context map key first = none →
      foundAt context map key first = none := by
    intro first hremove
    rw [Option.eq_none_iff_forall_ne_some]
    intro old hfound
    simp [removeAt, hfound] at hremove
  unfold hashmapRemove at hrun
  split at hrun
  · exact absurd hrun (by simp)
  simp only [Option.orElse_eq_orElse, Option.orElse_eq_or] at hrun
  rcases Option.or_eq_some_iff.mp hrun with hrun | ⟨hfirst, hrun⟩
  · exact Or.inr (removeAt_spec h hrun)
  rcases Option.or_eq_some_iff.mp hrun with hrun | ⟨hsecond, hrun⟩
  · exact Or.inr (removeAt_spec h hrun)
  simp only [Option.some.injEq, Prod.mk.injEq] at hrun
  obtain ⟨rfl, rfl⟩ := hrun
  refine Or.inl ⟨rfl, rfl, h.placed.absent_iff.mpr fun first => ?_⟩
  cases first with
  | true => exact hnone true hfirst
  | false => exact hnone false hsecond

/-! ## Finite maps -/

namespace HashmapContext

/-- Keys that are equal. -/
def setoid (context : HashmapContext κ) : Setoid κ := ⟨_, context.equivalence⟩

/-- A key, up to the equality of the context. -/
abbrev Class (context : HashmapContext κ) : Type _ := Quotient context.setoid

instance (context : HashmapContext κ) : DecidableEq context.Class :=
  @Quotient.decidableEq κ context.setoid fun a b =>
    inferInstanceAs (Decidable (context.equal a b = true))

/-- The class of a key. -/
def classOf (context : HashmapContext κ) (key : κ) : context.Class :=
  Quotient.mk context.setoid key

theorem classOf_eq_iff {a b : κ} :
    context.classOf a = context.classOf b ↔ context.equal a b = true :=
  Quotient.eq (r := context.setoid)

end HashmapContext

/-- A finite map from keys, up to their equality, to entries. -/
abbrev FiniteMap (context : HashmapContext κ) (ν : Type*) :=
  Finmap fun _ : context.Class => HashmapEntry κ ν

/-- A call on a map. -/
inductive HashmapOp (κ ν : Type*)
  | insert (key : κ) (value : ν)
  | lookup (key : κ)
  | remove (key : κ)

/-- What a call answers and leaves. -/
def hashmapStep (context : HashmapContext κ) (fuel : ℕ) (map : Hashmap κ ν) :
    HashmapOp κ ν → Option (Hashmap κ ν × Option (HashmapEntry κ ν))
  | .insert key value => hashmapInsert context fuel map key value
  | .lookup key => some (map, hashmapLookup context map key)
  | .remove key => hashmapRemove context map key

/-- What it should answer and leave: the entry of the key before the call. -/
def finiteStep (context : HashmapContext κ) (m : FiniteMap context ν) :
    HashmapOp κ ν → FiniteMap context ν × Option (HashmapEntry κ ν)
  | .insert key value =>
    (m.insert (context.classOf key) ⟨key, value⟩, m.lookup (context.classOf key))
  | .lookup key => (m, m.lookup (context.classOf key))
  | .remove key => (m.erase (context.classOf key), m.lookup (context.classOf key))

/-- What the calls of a run answer, each with the length after it.  A run in which a call does not
return has no answers. -/
def hashmapAnswers (context : HashmapContext κ) (fuel : ℕ) :
    Hashmap κ ν → List (HashmapOp κ ν) → Option (List (Option (HashmapEntry κ ν) × ℕ))
  | _, [] => some []
  | map, op :: ops => do
    let (map, answer) ← hashmapStep context fuel map op
    let answers ← hashmapAnswers context fuel map ops
    some ((answer, map.len) :: answers)

/-- What they should answer: the length is the number of keys. -/
def finiteAnswers (context : HashmapContext κ) :
    FiniteMap context ν → List (HashmapOp κ ν) → List (Option (HashmapEntry κ ν) × ℕ)
  | _, [] => []
  | m, op :: ops =>
    let (m, answer) := finiteStep context m op
    (answer, m.keys.card) :: finiteAnswers context m ops

/-- The call is an insertion that overlooks its key. -/
def Hashmap.overlooksIn (context : HashmapContext κ) (map : Hashmap κ ν) : HashmapOp κ ν → Bool
  | .insert key _ => map.overlooks context key
  | _ => false

/-- No insertion of the run overlooks its key. -/
def Heeds (context : HashmapContext κ) (fuel : ℕ) : Hashmap κ ν → List (HashmapOp κ ν) → Prop
  | _, [] => True
  | map, op :: ops =>
    map.overlooksIn context op = false ∧
      ∀ map' answer, hashmapStep context fuel map op = some (map', answer) →
        Heeds context fuel map' ops

/-! ## Refinement -/

/-- The map is in order, and its entries are those of the finite map. -/
structure Refines (map : Hashmap κ ν) (m : FiniteMap context ν) : Prop where
  ok : map.Ok context
  represents : Slots.Represents (fun entry => context.classOf entry.key) map.entries m

namespace Refines

variable {m : FiniteMap context ν}

/-- The empty map is empty. -/
theorem init : Refines (hashmapInit : Hashmap κ ν) (∅ : FiniteMap context ν) :=
  ⟨ok_table 0, Slots.Represents.empty⟩

/-- **The length is the number of keys.** -/
theorem len_eq (h : Refines map m) : map.len = m.keys.card :=
  h.ok.len_eq.trans h.represents.card_keys.symm

theorem lookup_eq_some_iff (h : Refines map m) :
    m.lookup (context.classOf key) = some entry ↔
      entry ∈ map.entries ∧ context.equal entry.key key = true := by
  rw [h.represents.lookup_eq_some_iff, HashmapContext.classOf_eq_iff]

theorem lookup_eq_none (h : Refines map m) (habsent : map.Absent context key) :
    m.lookup (context.classOf key) = none :=
  h.represents.lookup_eq_none fun e hmem heq =>
    habsent e hmem (HashmapContext.classOf_eq_iff.mp heq)

/-- An insertion that stores its entry is one of the finite map. -/
theorem inserted (h : Refines map m) (hok : map'.Ok context)
    (hins : Inserted context map map' entry result)
    (hnew : result = none → map.Absent context entry.key) :
    Refines map' (m.insert (context.classOf entry.key) entry) := by
  cases hins with
  | added hlen hperm =>
    refine ⟨hok, h.represents.insert_new (fun e hmem heq => ?_) hperm⟩
    exact hnew rfl e hmem (HashmapContext.classOf_eq_iff.mp heq)
  | replaced hequal hlen hold hperm =>
    exact ⟨hok, h.represents.insert_old hold (HashmapContext.classOf_eq_iff.mpr hequal) hperm⟩

/-- **An insertion** answers and stores what the finite map does, unless it overlooks its key. -/
theorem insert (h : Refines map m)
    (hrun : hashmapInsert context fuel map key value = some (map', result)) :
    map.overlooks context key = true ∧ result ≠ m.lookup (context.classOf key) ∨
      map.overlooks context key = false ∧ result = m.lookup (context.classOf key) ∧
        Refines map' (m.insert (context.classOf key) ⟨key, value⟩) := by
  by_cases habsent : map.Absent context key
  · obtain ⟨rfl, hok, -, hins⟩ := insert_absent fuel _ _ _ _ _ h.ok habsent hrun
    have hsecond := h.ok.placed.absent_iff.mp habsent false
    exact Or.inr ⟨by simp [overlooks, hsecond], (h.lookup_eq_none habsent).symm,
      h.inserted hok hins fun _ => habsent⟩
  · obtain ⟨entry, hmem, hequal⟩ : ∃ entry ∈ map.entries, context.equal entry.key key = true := by
      simpa [Absent] using habsent
    have hlookup := h.lookup_eq_some_iff.mpr ⟨hmem, hequal⟩
    rcases insert_present h.ok hmem hequal hrun with ⟨hover, rfl⟩ | ⟨hover, rfl, hok, hins⟩
    · exact Or.inl ⟨hover, by simp [hlookup]⟩
    · refine Or.inr ⟨hover, hlookup.symm, h.inserted hok hins fun hnone => ?_⟩
      exact absurd hnone (by simp)

/-- **A removal** answers and drops what the finite map does. -/
theorem remove (h : Refines map m)
    (hrun : hashmapRemove context map key = some (map', result)) :
    result = m.lookup (context.classOf key) ∧ Refines map' (m.erase (context.classOf key)) := by
  rcases remove_spec h.ok hrun with ⟨rfl, rfl, habsent⟩ | ⟨old, rest, rfl, hequal, hold, hrest, hok⟩
  · have hnone := h.lookup_eq_none habsent
    refine ⟨hnone.symm, ?_⟩
    have herase : m.erase (context.classOf key) = m := by
      refine Finmap.ext_lookup fun c => ?_
      by_cases hc : c = context.classOf key
      · rw [hc, Finmap.lookup_erase, hnone]
      · rw [Finmap.lookup_erase_ne hc]
    rwa [herase]
  · have hmem : old ∈ map.entries := hold.mem_iff.mpr List.mem_cons_self
    refine ⟨(h.lookup_eq_some_iff.mpr ⟨hmem, hequal⟩).symm, hok, ?_⟩
    rw [← HashmapContext.classOf_eq_iff.mpr hequal]
    exact (h.represents.erase hold).perm hrest.symm

theorem lookup (h : Refines map m) (key : κ) :
    hashmapLookup context map key = m.lookup (context.classOf key) := by
  ext entry
  rw [hashmapLookup_eq_some_iff h.ok, h.lookup_eq_some_iff]

/-- **One call** answers wrongly exactly if it overlooks its key, and otherwise refines the finite
map's. -/
theorem step {op : HashmapOp κ ν} (h : Refines map m)
    (hrun : hashmapStep context fuel map op = some (map', result)) :
    map.overlooksIn context op = true ∧ result ≠ (finiteStep context m op).2 ∨
      map.overlooksIn context op = false ∧ result = (finiteStep context m op).2 ∧
        Refines map' (finiteStep context m op).1 := by
  cases op with
  | insert key value => exact h.insert hrun
  | lookup key =>
    simp only [hashmapStep, Option.some.injEq, Prod.mk.injEq] at hrun
    obtain ⟨rfl, rfl⟩ := hrun
    exact Or.inr ⟨rfl, h.lookup key, h⟩
  | remove key => exact Or.inr ⟨rfl, h.remove hrun⟩

/-- **A run** answers what the finite map does if and only if it heeds its keys. -/
theorem answers {ops : List (HashmapOp κ ν)}
    {answers : List (Option (HashmapEntry κ ν) × ℕ)} (h : Refines map m)
    (hrun : hashmapAnswers context fuel map ops = some answers) :
    answers = finiteAnswers context m ops ↔ Heeds context fuel map ops := by
  induction ops generalizing map m answers with
  | nil =>
    simp only [hashmapAnswers, Option.some.injEq] at hrun
    simp [← hrun, finiteAnswers, Heeds]
  | cons op ops ih =>
    obtain ⟨⟨map', answer⟩, hstep, hrest⟩ := Option.bind_eq_some_iff.mp hrun
    obtain ⟨later, hlater, heq⟩ := Option.bind_eq_some_iff.mp hrest
    obtain rfl := Option.some.inj heq
    have hdet : (∀ map'' answer', hashmapStep context fuel map op = some (map'', answer') →
        Heeds context fuel map'' ops) ↔ Heeds context fuel map' ops := by
      simp [hstep]
    simp only [finiteAnswers, Heeds, hdet, List.cons.injEq, Prod.mk.injEq]
    rcases h.step hstep with ⟨hover, hwrong⟩ | ⟨hover, hright, hrefines⟩
    · simp [hover, hwrong]
    · rw [ih hrefines hlater]
      simp [hover, hright, hrefines.len_eq]

end Refines

/-- **The hash map is a finite map, up to keys it overlooks**: in every run from the empty map whose
calls return, all answers are those of a finite map iff no insertion overlooks its key. -/
theorem answers_iff {ops : List (HashmapOp κ ν)}
    {answers : List (Option (HashmapEntry κ ν) × ℕ)}
    (hrun : hashmapAnswers context fuel hashmapInit ops = some answers) :
    answers = finiteAnswers context ∅ ops ↔ Heeds context fuel hashmapInit ops :=
  Refines.init.answers hrun

/-- The keys `d` and `n`: with the UTF-8 context, both have their first position at 0 modulo the
first capacity, and their second ones at 1 and at 2. -/
def dnContext : HashmapContext Char where
  hash key first := if first then 0 else if key = 'd' then 1 else 2
  equal lhs rhs := lhs == rhs
  equivalence := by simpa only [beq_iff_eq] using eq_equivalence
  hash_eq h first := by rw [beq_iff_eq.mp h]

/-- A run that heeds its keys: `n` displaces `d`, and a lookup and an insertion find them where they
are. -/
theorem answers_iff_dn :
    [(none, 1), (none, 2), (some ⟨'d', 1⟩, 2), (some ⟨'n', 2⟩, 2), (some ⟨'n', 3⟩, 1)] =
        finiteAnswers dnContext ∅
          [.insert 'd' 1, .insert 'n' 2, .lookup 'd', .insert 'n' 3, .remove 'n'] ↔
      Heeds dnContext 1 hashmapInit
        [.insert 'd' 1, .insert 'n' 2, .lookup 'd', .insert 'n' 3, .remove 'n'] :=
  answers_iff rfl

/-- Inserting `d`, `n` and `d` again stores three entries, the last as if it were the first of its
key. -/
theorem not_answers_dnd :
    ∃ answers,
      hashmapAnswers dnContext 1 hashmapInit [.insert 'd' 1, .insert 'n' 2, .insert 'd' 3] =
        some answers ∧
      answers ≠ finiteAnswers dnContext ∅ [.insert 'd' 1, .insert 'n' 2, .insert 'd' 3] :=
  ⟨[(none, 1), (none, 2), (none, 3)], rfl, by decide⟩

end Passgen
