import Mathlib.Data.List.Basic
import Mathlib.Data.List.GetD
import Mathlib.Tactic.Common
import Passgen.Container.Finite
import Passgen.Container.Utf8
import Passgen.Generate.Loading

/-!
# Wordlist/Stored — the wordlists of an environment

    name ─ hash map ▸ pointer ─ heap ▸ wordlist

An environment finds its wordlists by their names in a hash map of pointers; they are parsed and
trained where they are.  `Env` has a list of them instead.  Every call that adds a list, finds one
or writes one answers with the list what it answers with the map, as long as no list is added under
a name that the map overlooks (`lists_found`); names that are all different are never overlooked
(`heedsNames_of_nodup`).  What is generated only finds lists and writes them, so that the two agree
wherever a special starts (`StandFor.started`).
-/

namespace Passgen

open Hashmap

/-! ## The two representations -/

/-- The wordlists of a `passgen_env`: names with pointers, and what is allocated, by pointer. -/
structure StoredLists where
  wordlists : Hashmap (List UInt8) ℕ
  heap : List Wordlist

/-- What is done with the wordlists of an environment. -/
inductive ListsCall where
  | add (name : List UInt8) (file : WordlistFile) (markovLength : ℕ)
  | find (name : List UInt8)
  | store (name : List UInt8) (wordlist : Wordlist)

/-- The lists of `passgen_env_init`. -/
def storedInit : StoredLists := ⟨hashmapInit, []⟩

/-- `passgen_env_wordlist_add`. -/
def envWordlistAdd (fuel : ℕ) (s : StoredLists) (name : List UInt8) (file : WordlistFile)
    (markovLength : ℕ) : Option StoredLists :=
  (hashmapInsert utf8Context fuel s.wordlists name s.heap.length).map fun p =>
    ⟨p.1, s.heap ++ [wordlistInit file markovLength]⟩

/-- The list that `passgen_hashmap_lookup` leads to. -/
def StoredLists.find (s : StoredLists) (name : List UInt8) : Option Wordlist :=
  (hashmapLookup utf8Context s.wordlists name).bind fun entry => s.heap[entry.value]?

/-- Writing a list where it is. -/
def StoredLists.store (s : StoredLists) (name : List UInt8) (wordlist : Wordlist) : StoredLists :=
  match hashmapLookup utf8Context s.wordlists name with
  | some entry => { s with heap := s.heap.set entry.value wordlist }
  | none => s

/-- A call, with what it answers. -/
def storedStep (fuel : ℕ) (s : StoredLists) :
    ListsCall → Option (StoredLists × Option Wordlist)
  | .add name file markovLength =>
    (envWordlistAdd fuel s name file markovLength).map fun s => (s, none)
  | .find name => some (s, s.find name)
  | .store name wordlist => some (s.store name wordlist, none)

/-- The call on a list of names and wordlists. -/
def listsStep (lists : List (List UInt8 × Wordlist)) :
    ListsCall → List (List UInt8 × Wordlist) × Option Wordlist
  | .add name file markovLength => ((cString name, wordlistInit file markovLength) :: lists, none)
  | .find name => (lists, lists.lookup (cString name))
  | .store name wordlist =>
    (lists.map fun p => if p.1 = cString name then (p.1, wordlist) else p, none)

/-- What the calls leave and answer; there is nothing where a call does not return. -/
def storedRun (fuel : ℕ) :
    StoredLists → List ListsCall → Option (StoredLists × List (Option Wordlist))
  | s, [] => some (s, [])
  | s, call :: calls => do
    let (s, answer) ← storedStep fuel s call
    let (s, answers) ← storedRun fuel s calls
    some (s, answer :: answers)

/-- What they leave and answer with the list. -/
def listsRun :
    List (List UInt8 × Wordlist) → List ListsCall →
      List (List UInt8 × Wordlist) × List (Option Wordlist)
  | lists, [] => (lists, [])
  | lists, call :: calls =>
    let (lists, answer) := listsStep lists call
    let (lists, answers) := listsRun lists calls
    (lists, answer :: answers)

/-- The call adds a list under a name that the map overlooks. -/
def StoredLists.overlooks (s : StoredLists) : ListsCall → Bool
  | .add name _ _ => s.wordlists.overlooks utf8Context name
  | _ => false

/-- No list is added under a name that the map overlooks. -/
def HeedsNames (fuel : ℕ) : StoredLists → List ListsCall → Prop
  | _, [] => True
  | s, call :: calls =>
    s.overlooks call = false ∧
      ∀ s' answer, storedStep fuel s call = some (s', answer) → HeedsNames fuel s' calls

/-! ## Association lists -/

section Lookup

variable {lists : List (List UInt8 × Wordlist)} {name other : List UInt8}

theorem lookup_cons_eq (entry : List UInt8 × Wordlist) :
    (entry :: lists).lookup name = if name = entry.1 then some entry.2 else lists.lookup name := by
  obtain ⟨key, wordlist⟩ := entry
  rw [List.lookup_cons]
  by_cases h : name = key
  · rw [if_pos h, beq_iff_eq.mpr h]
  · rw [if_neg h, beq_eq_false_iff_ne.mpr h]

/-- Writing a list is seen under its name. -/
theorem lookup_store (wordlist : Wordlist) :
    (lists.map fun p => if p.1 = other then (p.1, wordlist) else p).lookup name =
      if name = other then (lists.lookup name).map fun _ => wordlist else lists.lookup name := by
  induction lists with
  | nil => simp
  | cons entry lists ih =>
    rw [List.map_cons, lookup_cons_eq, lookup_cons_eq, ih]
    by_cases hentry : entry.1 = other
    · rw [if_pos hentry]
      by_cases hname : name = entry.1
      · simp [hname, hentry]
      · have hne : name ≠ other := fun h => hname (h.trans hentry.symm)
        simp [hname, hne]
    · rw [if_neg hentry]
      by_cases hname : name = entry.1
      · have hne : name ≠ other := fun h => hentry (hname.symm.trans h)
        simp [hname, hentry]
      · simp [hname]

end Lookup

/-! ## The lists stand for the map -/

/-- The pointers of the map are allocated and all different, and what they lead to is what the list
has. -/
structure Stands (s : StoredLists) (lists : List (List UInt8 × Wordlist))
    (m : FiniteMap utf8Context ℕ) : Prop where
  refines : Refines s.wordlists m
  allocated : ∀ {name : List UInt8} {entry : HashmapEntry (List UInt8) ℕ},
    m.lookup (utf8Context.classOf name) = some entry → entry.value < s.heap.length
  apart : ∀ {name other : List UInt8} {entry entry' : HashmapEntry (List UInt8) ℕ},
    m.lookup (utf8Context.classOf name) = some entry →
      m.lookup (utf8Context.classOf other) = some entry' → entry.value = entry'.value →
        cString name = cString other
  same : ∀ name, ((m.lookup (utf8Context.classOf name)).bind fun entry => s.heap[entry.value]?)
    = lists.lookup (cString name)

section Steps

variable {s s' : StoredLists} {lists : List (List UInt8 × Wordlist)}
  {m : FiniteMap utf8Context ℕ} {fuel : ℕ} {name other : List UInt8}

theorem classOf_name_iff :
    utf8Context.classOf name = utf8Context.classOf other ↔ cString name = cString other :=
  HashmapContext.classOf_eq_iff.trans utf8Equal_iff

theorem stands_init : Stands storedInit [] ∅ :=
  ⟨Refines.init, fun h => absurd h (by simp), fun h => absurd h (by simp), fun _ => by simp⟩

/-- **A list is found** in the map as in the list. -/
theorem Stands.find (h : Stands s lists m) (name : List UInt8) :
    s.find name = lists.lookup (cString name) := by
  rw [StoredLists.find, h.refines.lookup, h.same]

/-- **A list is added**, unless the map overlooks its name. -/
theorem Stands.add (h : Stands s lists m) {file : WordlistFile} {markovLength : ℕ}
    (hheeds : s.wordlists.overlooks utf8Context name = false)
    (hadd : envWordlistAdd fuel s name file markovLength = some s') :
    ∃ m', Stands s' ((cString name, wordlistInit file markovLength) :: lists) m' := by
  obtain ⟨⟨map, result⟩, hrun, rfl⟩ := Option.map_eq_some_iff.mp hadd
  obtain ⟨hover, -⟩ | ⟨-, -, hrefines⟩ := h.refines.insert hrun
  · exact absurd (hheeds.symm.trans hover) Bool.false_ne_true
  refine ⟨_, hrefines, fun {other entry} hlookup => ?_, fun {a b entry entry'} ha hb hvalue => ?_,
    fun other => ?_⟩
  · rw [List.length_append, List.length_singleton]
    by_cases hname : utf8Context.classOf other = utf8Context.classOf name
    · rw [hname, Finmap.lookup_insert] at hlookup
      obtain rfl := Option.some.inj hlookup
      exact Nat.lt_succ_self _
    · rw [Finmap.lookup_insert_of_ne _ hname] at hlookup
      exact Nat.lt_succ_of_lt (h.allocated hlookup)
  · -- a pointer that was there before is not the new one
    have hold : ∀ {c : List UInt8} {e : HashmapEntry (List UInt8) ℕ},
        utf8Context.classOf c ≠ utf8Context.classOf name →
          (m.insert (utf8Context.classOf name) ⟨name, s.heap.length⟩).lookup
            (utf8Context.classOf c) = some e → m.lookup (utf8Context.classOf c) = some e := by
      intro c e hne hlookup
      rwa [Finmap.lookup_insert_of_ne _ hne] at hlookup
    have hnew : ∀ {c : List UInt8} {e : HashmapEntry (List UInt8) ℕ},
        utf8Context.classOf c = utf8Context.classOf name →
          (m.insert (utf8Context.classOf name) ⟨name, s.heap.length⟩).lookup
            (utf8Context.classOf c) = some e → e.value = s.heap.length := by
      intro c e heq hlookup
      rw [heq, Finmap.lookup_insert] at hlookup
      exact (congrArg HashmapEntry.value (Option.some.inj hlookup)).symm
    by_cases ha' : utf8Context.classOf a = utf8Context.classOf name
    · by_cases hb' : utf8Context.classOf b = utf8Context.classOf name
      · exact classOf_name_iff.mp (ha'.trans hb'.symm)
      · have hlt := h.allocated (hold hb' hb)
        rw [← hvalue, hnew ha' ha] at hlt
        exact absurd hlt (Nat.lt_irrefl _)
    · by_cases hb' : utf8Context.classOf b = utf8Context.classOf name
      · have hlt := h.allocated (hold ha' ha)
        rw [hvalue, hnew hb' hb] at hlt
        exact absurd hlt (Nat.lt_irrefl _)
      · exact h.apart (hold ha' ha) (hold hb' hb) hvalue
  · rw [lookup_cons_eq]
    by_cases hname : cString other = cString name
    · rw [if_pos hname, classOf_name_iff.mpr hname, Finmap.lookup_insert, Option.bind_some,
        List.getElem?_append_right le_rfl, Nat.sub_self]
      rfl
    · rw [if_neg hname, Finmap.lookup_insert_of_ne _ fun heq => hname (classOf_name_iff.mp heq),
        ← h.same other]
      refine Option.bind_congr fun entry hentry => ?_
      exact List.getElem?_append_left (h.allocated hentry)

/-- **A list is written** in the map as in the list. -/
theorem Stands.store (h : Stands s lists m) (name : List UInt8) (wordlist : Wordlist) :
    Stands (s.store name wordlist)
      (lists.map fun p => if p.1 = cString name then (p.1, wordlist) else p) m := by
  rw [StoredLists.store, h.refines.lookup]
  cases hfound : m.lookup (utf8Context.classOf name) with
  | none =>
    refine ⟨h.refines, h.allocated, h.apart, fun other => ?_⟩
    rw [h.same, lookup_store]
    split
    · rename_i hname
      have hnone := h.same name
      rw [hfound, Option.bind_none] at hnone
      rw [hname, ← hnone, Option.map_none]
    · rfl
  | some entry =>
    refine ⟨h.refines, fun hlookup => ?_, h.apart, fun other => ?_⟩
    · rw [List.length_set]
      exact h.allocated hlookup
    rw [lookup_store, ← h.same other]
    by_cases hname : cString other = cString name
    · have hlt := h.allocated hfound
      rw [if_pos hname, classOf_name_iff.mpr hname, hfound, Option.bind_some, Option.bind_some,
        List.getElem?_set_self hlt, List.getElem?_eq_getElem hlt, Option.map_some]
    · rw [if_neg hname]
      refine Option.bind_congr fun entry' hentry' => ?_
      exact List.getElem?_set_ne fun hvalue => hname (h.apart hentry' hfound hvalue.symm)

/-- **One call** answers alike, and leaves a list that stands for the map. -/
theorem Stands.step (h : Stands s lists m) {call : ListsCall} {answer : Option Wordlist}
    (hheeds : s.overlooks call = false) (hrun : storedStep fuel s call = some (s', answer)) :
    answer = (listsStep lists call).2 ∧ ∃ m', Stands s' (listsStep lists call).1 m' := by
  cases call with
  | add name file markovLength =>
    obtain ⟨added, hadd, heq⟩ := Option.map_eq_some_iff.mp hrun
    obtain ⟨rfl, rfl⟩ := Prod.mk.inj heq
    exact ⟨rfl, h.add hheeds hadd⟩
  | find name =>
    obtain ⟨rfl, rfl⟩ := Prod.mk.inj (Option.some.inj hrun)
    exact ⟨h.find name, m, h⟩
  | store name wordlist =>
    obtain ⟨rfl, rfl⟩ := Prod.mk.inj (Option.some.inj hrun)
    exact ⟨rfl, m, h.store name wordlist⟩

/-- **All calls answer alike** where no name is overlooked. -/
theorem Stands.run (h : Stands s lists m) {calls : List ListsCall}
    {answers : List (Option Wordlist)} (hheeds : HeedsNames fuel s calls)
    (hrun : storedRun fuel s calls = some (s', answers)) :
    answers = (listsRun lists calls).2 ∧ ∃ m', Stands s' (listsRun lists calls).1 m' := by
  induction calls generalizing s lists m answers with
  | nil =>
    obtain ⟨rfl, rfl⟩ := Prod.mk.inj (Option.some.inj hrun)
    exact ⟨rfl, m, h⟩
  | cons call calls ih =>
    obtain ⟨⟨mid, answer⟩, hstep, hrest⟩ := Option.bind_eq_some_iff.mp hrun
    obtain ⟨⟨last, later⟩, hlater, heq⟩ := Option.bind_eq_some_iff.mp hrest
    obtain ⟨rfl, rfl⟩ := Prod.mk.inj (Option.some.inj heq)
    obtain ⟨rfl, m', hstands⟩ := h.step hheeds.1 hstep
    obtain ⟨rfl, hlast⟩ := ih hstands (hheeds.2 mid _ hstep) hlater
    exact ⟨rfl, hlast⟩

/-- A name without a list is not overlooked. -/
theorem Stands.heeds (h : Stands s lists m) (hnone : lists.lookup (cString name) = none) :
    s.wordlists.overlooks utf8Context name = false := by
  have hlookup : m.lookup (utf8Context.classOf name) = none := by
    rw [← h.same name] at hnone
    cases hfound : m.lookup (utf8Context.classOf name) with
    | none => rfl
    | some entry =>
      rw [hfound, Option.bind_some, List.getElem?_eq_getElem (h.allocated hfound)] at hnone
      cases hnone
  have habsent : s.wordlists.Absent utf8Context name := fun entry hentry hequal => by
    have hfound := h.refines.lookup_eq_some_iff.mpr ⟨hentry, hequal⟩
    exact absurd (hfound.symm.trans hlookup) (by simp)
  have hsecond := h.refines.ok.placed.absent_iff.mp habsent false
  rw [Hashmap.overlooks, hsecond]
  simp

end Steps

/-- The names under which the calls add lists. -/
def addedNames (calls : List ListsCall) : List (List UInt8) :=
  calls.filterMap fun
    | .add name _ _ => some (cString name)
    | _ => none

/-- **Names that are all different are heeded.** -/
theorem heedsNames_of_nodup {fuel : ℕ} {calls : List ListsCall} {s : StoredLists}
    {lists : List (List UInt8 × Wordlist)} {m : FiniteMap utf8Context ℕ} (h : Stands s lists m)
    (hnodup : (addedNames calls).Nodup)
    (hnew : ∀ name ∈ addedNames calls, lists.lookup name = none) :
    HeedsNames fuel s calls := by
  induction calls generalizing s lists m with
  | nil => trivial
  | cons call calls ih =>
    cases call with
    | add name file markovLength =>
      obtain ⟨hname, hrest⟩ := List.nodup_cons.mp hnodup
      obtain ⟨hnone, hnew⟩ := List.forall_mem_cons.mp hnew
      have hheeds : s.overlooks (.add name file markovLength) = false := h.heeds hnone
      refine ⟨hheeds, fun s' answer hstep => ?_⟩
      obtain ⟨-, m', hstands⟩ := h.step hheeds hstep
      refine ih hstands hrest fun other hother => ?_
      have hne : other ≠ cString name := fun heq => hname (heq ▸ hother)
      rw [listsStep, lookup_cons_eq, if_neg hne]
      exact hnew other hother
    | find name =>
      refine ⟨rfl, fun s' answer hstep => ?_⟩
      obtain ⟨-, m', hstands⟩ := h.step rfl hstep
      exact ih hstands hnodup hnew
    | store name wordlist =>
      refine ⟨rfl, fun s' answer hstep => ?_⟩
      obtain ⟨-, m', hstands⟩ := h.step rfl hstep
      refine ih hstands hnodup fun other hother => ?_
      rw [listsStep, lookup_store, hnew other hother, Option.map_none, ite_self]

/-! ## In a run -/

section Runs

open Effect

variable {σ δ : Type} {host : Host σ δ} {map : Hashmap (List UInt8) ℕ} {size : ℕ}

/-- The lists stand for the map, with what is allocated under its pointers. -/
def StandFor (map : Hashmap (List UInt8) ℕ) (size : ℕ) (lists : List (List UInt8 × Wordlist)) :
    Prop :=
  ∃ heap m, heap.length = size ∧ Stands ⟨map, heap⟩ lists m

theorem StandFor.store {lists : List (List UInt8 × Wordlist)} (h : StandFor map size lists)
    (string : List UInt8) (wordlist : Wordlist) :
    StandFor map size (lists.map fun p => if p.1 = cString string then (p.1, wordlist) else p) := by
  obtain ⟨heap, m, hsize, h⟩ := h
  obtain ⟨heap', hsize', hstore⟩ : ∃ heap', heap'.length = size ∧
      (⟨map, heap⟩ : StoredLists).store string wordlist = ⟨map, heap'⟩ := by
    rw [StoredLists.store]
    split
    · exact ⟨_, List.length_set.trans hsize, rfl⟩
    · exact ⟨heap, hsize, rfl⟩
  exact ⟨heap', m, hsize', hstore ▸ h.store string wordlist⟩

/-- **A special finds lists and writes them**, under the names it finds them by. -/
theorem specialsKeep_standFor (map : Hashmap (List UInt8) ℕ) (size : ℕ) (host : Host σ δ) :
    SpecialsKeep host (StandFor map size) fun _ _ => True := by
  intro special s _
  have hstore : ∀ {name wordlist t trained},
      Returns (findWordlist special) s (name, wordlist) t →
        ∀ u, (invariant fun s => StandFor map size s.wordlists).HoldsAt 1
          (storeWordlist name trained : Gen σ δ Unit) u := by
    intro name wordlist t trained hfind u
    obtain ⟨-, string, -, -, rfl, -⟩ := returns_findWordlist_iff.mp hfind
    exact Guarantee.holds_modify (fun s hs => hs.store string trained) u
  rw [generateSpecial]
  cases special.kind with
  | preset => exact Guarantee.holds_pure () s
  | markov =>
    refine (kept_findWordlist special _ s).next fun found t hfind => ?_
    refine (kept_trainWordlist found.2 _ t).next fun trained u _ => ?_
    refine (hstore hfind u).next fun _ v _ => ?_
    exact ((kept_markovWord _ _ _).bind fun word => kept_emitAll _) _ v
  | wordlist =>
    refine (kept_findWordlist special _ s).next fun found t hfind => ?_
    refine (hstore hfind t).next fun _ u _ => ?_
    split
    · exact Guarantee.holds_throw _ u
    refine Kept.bind (kept_drawBelow _ _) (fun index => ?_) _ u
    dsimp only
    split
    · exact kept_throw _
    · exact (kept_emitAll _).bind fun _ => kept_entropy _

/-- **In every sequence of calls the map finds what the list does**, wherever a special starts. -/
theorem StandFor.started {lists : List (List UInt8 × Wordlist)} (h : StandFor map size lists)
    {calls : List (Call σ δ)} {special : Special} {t : GenState σ δ}
    (hstart : StartedIn calls lists special t) :
    ∃ heap, heap.length = size ∧ ∀ name,
      StoredLists.find ⟨map, heap⟩ name = t.wordlists.lookup (cString name) := by
  obtain ⟨heap, m, hsize, hstands⟩ :=
    kept_of_started (specialsKeep_standFor map size) (fun _ _ _ => trivial) hstart h
  exact ⟨heap, hsize, hstands.find⟩

end Runs

/-- **The wordlists of an environment are a list of them by name.**  Calls on the hash map, with
SipHash, answer what they do on the list, where the names of the lists that are added are all
different, or none of them is overlooked; and whatever is generated then, every special finds in the
map what it finds in the list, under the same pointers. -/
theorem lists_found {fuel : ℕ} {calls : List ListsCall} {s : StoredLists}
    {answers : List (Option Wordlist)}
    (hnames : (addedNames calls).Nodup ∨ HeedsNames fuel storedInit calls)
    (hrun : storedRun fuel storedInit calls = some (s, answers)) :
    answers = (listsRun [] calls).2 ∧
      ∀ {σ δ : Type} (runs : List (Call σ δ)) (special : Special) (t : GenState σ δ),
        StartedIn runs (listsRun [] calls).1 special t →
          ∃ heap, heap.length = s.heap.length ∧ ∀ name,
            StoredLists.find ⟨s.wordlists, heap⟩ name = t.wordlists.lookup (cString name) := by
  have hheeds : HeedsNames fuel storedInit calls := by
    rcases hnames with hnodup | hheeds
    · exact heedsNames_of_nodup stands_init hnodup fun _ _ => rfl
    · exact hheeds
  obtain ⟨hanswers, m, hstands⟩ := stands_init.run hheeds hrun
  refine ⟨hanswers, fun runs special t hstart => ?_⟩
  exact StandFor.started ⟨s.heap, m, rfl, hstands⟩ hstart

/-- A list `n` that displaces `d`, whose words are written then. -/
def callsDN : List ListsCall :=
  [.add [100] ⟨[101], true, by decide⟩ 3, .add [110] ⟨[98], true, by decide⟩ 2,
    .store [100, 0, 1] (wordlistInit ⟨[99], true, by decide⟩ 1), .find [100], .find [110],
    .find [120]]

theorem lists_found_dn :
    ∃ s answers, storedRun 1 storedInit callsDN = some (s, answers) ∧
      answers = (listsRun [] callsDN).2 ∧
      ∀ {σ δ : Type} (runs : List (Call σ δ)) (special : Special) (t : GenState σ δ),
        StartedIn runs (listsRun [] callsDN).1 special t →
          ∃ heap, heap.length = s.heap.length ∧ ∀ name,
            StoredLists.find ⟨s.wordlists, heap⟩ name = t.wordlists.lookup (cString name) := by
  obtain ⟨⟨s, answers⟩, hrun⟩ := Option.isSome_iff_exists.mp
    (show (storedRun 1 storedInit callsDN).isSome by decide +kernel)
  exact ⟨s, answers, hrun, lists_found (.inl (by decide)) hrun⟩

end Passgen
