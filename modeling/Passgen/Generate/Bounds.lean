import Mathlib.Data.List.Basic
import Mathlib.Tactic.Common
import Passgen.Generate.Draws
import Passgen.Parser.Items

/-!
# Generate/Bounds — what is drawn below

    repeat   max - min + 1      set   number of choices      segment   multiplier_sum
    word     number of words    chain   total of the leaf

A draw below zero never comes to an end.  The sums of groups are checked and the totals of loaded
chains are positive; the other three bounds are zero in exactly the cases `Site.Drawable` excludes.
-/

namespace Passgen

/-! ## Running totals -/

/-- The number of choices of a set, unbounded. -/
def PatternSet.choices (set : PatternSet) : ℕ := (set.items.map Range.choices).sum

/-- The last running total is the number of choices, modulo `2 ^ 64`. -/
theorem getLast_choicesFrom {items : List Range} (hne : items ≠ []) (choices : ℕ) :
    (choicesFrom choices items)[items.length - 1]?
      = some (sizeT (choices + (items.map Range.choices).sum)) := by
  induction items generalizing choices with
  | nil => exact absurd rfl hne
  | cons range items ih =>
    cases items with
    | nil =>
      rw [choicesFrom, List.map_singleton, List.sum_singleton]
      exact List.getElem?_cons_zero
    | cons range' items =>
      rw [choicesFrom, List.length_cons, Nat.add_sub_cancel, List.length_cons,
        List.getElem?_cons_succ]
      have htail := ih (List.cons_ne_nil _ _) (sizeT (choices + range.choices))
      rw [List.length_cons, Nat.add_sub_cancel] at htail
      rw [htail, List.map_cons (a := range), List.sum_cons, ← Nat.add_assoc, sizeT, sizeT, sizeT,
        Nat.mod_add_mod]

/-! ## Accepted patterns -/

/-- The bounds of a repeat fit a `size_t`, and a set is closed. -/
def Site.Sized : Site → ℕ → Prop
  | .rep r, _ => r.min < 2 ^ 64 ∧ r.max < 2 ^ 64
  | .set s, _ => s.choicesList = choicesFrom 0 s.items
  | _, _ => True

theorem offers_init {S : Site → ℕ → Prop} (hS : ∀ bound, S (.rep ⟨1, 1⟩) bound)
    {data : ItemData Item} (hdata : dataOffers S (data.map (Item.Offers S))) :
    (Item.init data).Offers S :=
  Item.offers_mk.mpr ⟨hdata, hS _, fun h => absurd h Bool.false_ne_true⟩

/-- The bounds of a repeat fit a `size_t`, and a set satisfies `Q`. -/
def Site.Within (Q : PatternSet → Prop) : Site → ℕ → Prop
  | .rep r, _ => r.min < 2 ^ 64 ∧ r.max < 2 ^ 64
  | .set s, _ => Q s
  | _, _ => True

/-- What holds of the sets the parser makes, whenever they are closed. -/
structure SetRules (Q : PatternSet → Prop) : Prop where
  empty : ∀ {set}, set.items = [] → Q (setClose set)
  push : ∀ {set} c, Q (setClose set) → Q (setClose (setPush c set))
  extend : ∀ {set range c}, set.items.getLast? = some range → range.start ≤ c →
    Q (setClose set) → Q (setClose (setExtend c set))

section SetRules

variable {Q : PatternSet → Prop} (hQ : SetRules Q)
include hQ

/-- A closed set draws unless it is empty. -/
theorem SetRules.of_offers {set : PatternSet} {rep : Repeat} {maybe : Bool}
    (h : (Item.mk (.set (setClose set)) rep maybe).Offers (Site.Within Q)) : Q (setClose set) := by
  by_cases hnil : set.items = []
  · exact hQ.empty hnil
  · exact (Item.offers_mk.mp h).1 _ (getLast_choicesFrom hnil 0)

theorem SetRules.itemRules : ItemRules (Item.Offers (Site.Within Q)) := by
  have hinit : ∀ {data : ItemData Item},
      dataOffers (Site.Within Q) (data.map (Item.Offers (Site.Within Q))) →
      (Item.init data).Offers (Site.Within Q) := fun hdata =>
    offers_init (fun _ => ⟨by decide, by decide⟩) hdata
  have hdata : ∀ {data data' : ItemData Item} {rep maybe},
      (Item.mk data rep maybe).Offers (Site.Within Q) →
      dataOffers (Site.Within Q) (data'.map (Item.Offers (Site.Within Q))) →
      (Item.mk data' rep maybe).Offers (Site.Within Q) := fun h hdata' =>
    Item.offers_mk.mpr ⟨hdata', (Item.offers_mk.mp h).2⟩
  exact
    { fresh _ := hinit trivial
      other h _ := hdata h trivial
      special _ := hinit trivial
      name {item} c h := by
        rcases item with ⟨_ | _ | _ | _, rep, maybe⟩
        case special => exact hdata h trivial
        all_goals exact h
      set := hinit fun _ _ => hQ.empty rfl
      push c h := hdata h fun _ _ => hQ.push c (hQ.of_offers h)
      extend hlast hle h := hdata h fun _ _ => hQ.extend hlast hle (hQ.of_offers h)
      group g h := hinit (Group.offers_iff.mpr
        ⟨trivial, fun s hs => h s (segments_groupFinish g ▸ hs)⟩)
      maybe {item} h := by
        rcases item with ⟨data, rep, maybe⟩
        have hitem := Item.offers_mk.mp h
        exact Item.offers_mk.mpr ⟨hitem.1, hitem.2.1, fun _ => trivial⟩
      rep {item rep} hmin hmax h := by
        rcases item with ⟨data, rep', maybe⟩
        have hitem := Item.offers_mk.mp h
        exact Item.offers_mk.mpr ⟨hitem.1, ⟨hmin, hmax⟩, hitem.2.2⟩
      sized {item} h := by
        rcases item with ⟨data, rep, maybe⟩
        exact (Item.offers_mk.mp h).2.1 }

/-- **What holds of the sets the parser makes** holds of those of an accepted pattern. -/
theorem SetRules.offers_of_parse {string : List UInt8} {g : Group} (hparse : parse string = .ok g) :
    g.Offers (Site.Within Q) :=
  Group.offers_iff.mpr ⟨trivial, hQ.itemRules.parse hparse⟩

end SetRules

theorem within_closed :
    Site.Within (fun s => s.choicesList = choicesFrom 0 s.items) = Site.Sized := by
  funext site bound
  cases site <;> rfl

/-- **An accepted pattern** has its sets closed and its repeats within `size_t`. -/
theorem offers_sized_of_parse {string : List UInt8} {g : Group} (hparse : parse string = .ok g) :
    g.Offers Site.Sized :=
  within_closed ▸ SetRules.offers_of_parse ⟨fun _ => rfl, fun _ _ => rfl, fun _ _ _ => rfl⟩ hparse

/-! ## Bounds -/

/-- A place with something to draw: a repeat whose `max + 1` is not its `min`, a set whose choices
do not wrap to zero, a list with words. -/
def Site.Drawable : Site → Prop
  | .rep r => sizeT (r.max + 1) ≠ r.min
  | .set s => sizeT s.choices ≠ 0
  | .word ws => ws ≠ []
  | _ => True

/-- **A bound is positive exactly where there is something to draw.** -/
theorem Draw.Lawful.bound_pos_iff {draw : Draw} (h : draw.Lawful Site.Sized) :
    0 < draw.bound ↔ draw.site.Drawable := by
  obtain ⟨site, bound, taken⟩ := draw
  obtain ⟨hasks, -⟩ := h
  cases site with
  | maybe => exact iff_of_true (hasks.2 ▸ Nat.two_pos) trivial
  | rep r =>
    obtain ⟨⟨hmin, hmax⟩, rfl⟩ := hasks
    simp only [Site.Drawable, sizeSub, sizeT]
    omega
  | set s =>
    obtain ⟨hclosed, hlast⟩ := hasks
    have hne : s.items ≠ [] := by
      intro hnil
      rw [hclosed, hnil] at hlast
      exact absurd hlast (by simp [choicesFrom])
    rw [hclosed, getLast_choicesFrom hne, Nat.zero_add] at hlast
    rw [← Option.some.inj hlast]
    exact Nat.pos_iff_ne_zero
  | segment multipliers => exact iff_of_true hasks.2 trivial
  | word words =>
    obtain rfl := hasks
    exact List.length_pos_iff
  | markov leaf =>
    obtain ⟨⟨k, -, hleaf⟩, rfl⟩ := hasks
    exact iff_of_true hleaf.2 trivial

/-- **No draw of a run of an accepted pattern has bound zero exactly when each is made at a place
with something to draw**, for every source, every callback, all files, and however the run ends. -/
theorem bounds_pos_iff {string : List UInt8} {pattern : Group} (hparse : parse string = .ok pattern)
    {σ δ : Type} (host : Host σ δ) (random : σ) (data : δ) (depthLimit : ℕ) (entropy : Bool)
    {wordlists : List (List UInt8 × Wordlist)} (hloaded : ∀ p ∈ wordlists, p.2.Loaded) :
    (∀ draw ∈ (Effect.final (generate host pattern)
        (GenState.init random data depthLimit entropy wordlists)).draws, 0 < draw.bound) ↔
      ∀ draw ∈ (Effect.final (generate host pattern)
        (GenState.init random data depthLimit entropy wordlists)).draws, draw.site.Drawable := by
  have hlawful : ∀ draw ∈ (Effect.final (generate host pattern)
      (GenState.init random data depthLimit entropy wordlists)).draws, draw.Lawful Site.Sized :=
    lawful_of_mem_draws (offers_sized_of_parse hparse) hloaded rfl
  exact forall₂_congr fun draw hdraw => (hlawful draw hdraw).bound_pos_iff

/-- `a{1,2}`. -/
def repeatPattern : Group := ⟨[⟨[.mk (.literal ⟨[97], true⟩) ⟨1, 2⟩ false], 1⟩], 1⟩

theorem bounds_pos_iff_repeatPattern :
    (∀ draw ∈ (Effect.final (generate drawHost repeatPattern)
        (GenState.init [0, 1] () 1 false [])).draws, 0 < draw.bound) ↔
      ∀ draw ∈ (Effect.final (generate drawHost repeatPattern)
        (GenState.init [0, 1] () 1 false [])).draws, draw.site.Drawable := by
  have hparse : parse (ascii "a{1,2}") = .ok repeatPattern := rfl
  exact bounds_pos_iff hparse drawHost [0, 1] () 1 false fun _ h => absurd h List.not_mem_nil

/-- `a{1,}` is accepted, with a maximum of zero; its number of copies is drawn below zero. -/
theorem bounds_open_repeat :
    ∃ pattern, parse (ascii "a{1,}") = .ok pattern ∧
      ∃ draw ∈ (Effect.final (generate drawHost pattern)
        (GenState.init [0, 0] () 1 false [])).draws, draw.bound = 0 := by
  refine ⟨⟨[⟨[.mk (.literal ⟨[97], true⟩) ⟨1, 0⟩ false], 1⟩], 1⟩, rfl,
    ⟨.rep ⟨1, 0⟩, 0, none⟩, ?_, rfl⟩
  exact List.mem_of_getElem? (i := 1) rfl

end Passgen
