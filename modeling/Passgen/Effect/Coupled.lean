import Mathlib.Data.List.Basic
import Mathlib.Tactic.Common
import Passgen.Effect.Rules

/-!
# Effect/Coupled — a computation that goes on, and one that may be cut

    s ──▸ t ──▸ u          the one that goes on
    │     │ ╲
    s' ─▸ t' ▪             the other one: side by side, until it is cut

A `Coupling` relates the states of two computations while both go on, and the state the first one
is in to the one the second was cut in.  `Follows` says that the second does what the first does, as
long as it is not cut; sequences follow sequences.
-/

namespace Effect

variable {ε₁ ε₂ σ₁ σ₂ α β ι : Type}

/-- How a computation is followed by another one. -/
structure Coupling (ε₂ σ₁ σ₂ : Type) where
  /-- Both go on. -/
  both : σ₁ → σ₂ → Prop
  /-- The second one was cut. -/
  cut : σ₁ → ε₂ → σ₂ → Prop

namespace Coupling

variable (C : Coupling ε₂ σ₁ σ₂)

/-- The second computation returns as the first one does, or it is cut. -/
structure Follows (x : EStateM ε₁ σ₁ α) (y : EStateM ε₂ σ₂ α) : Prop where
  both : ∀ {s s' a t}, C.both s s' → Returns x s a t →
    (∃ t', Returns y s' a t' ∧ C.both t t') ∨ ∃ e t', Stops y s' e t' ∧ C.cut t e t'
  cut : ∀ {s e s' a t}, C.cut s e s' → Returns x s a t → C.cut t e s'

variable {C}

theorem follows_pure (a : α) :
    C.Follows (pure a : EStateM ε₁ σ₁ α) (pure a : EStateM ε₂ σ₂ α) where
  both hs hx := by
    obtain ⟨rfl, rfl⟩ := returns_pure_iff.mp hx
    exact .inl ⟨_, returns_pure_iff.mpr ⟨rfl, rfl⟩, hs⟩
  cut hs hx := by
    obtain ⟨rfl, rfl⟩ := returns_pure_iff.mp hx
    exact hs

theorem follows_throw (e : ε₁) (y : EStateM ε₂ σ₂ α) :
    C.Follows (throw e : EStateM ε₁ σ₁ α) y where
  both _ hx := absurd hx returns_throw
  cut _ hx := absurd hx returns_throw

theorem follows_modify {f : σ₁ → σ₁} {g : σ₂ → σ₂}
    (hboth : ∀ {s s'}, C.both s s' → C.both (f s) (g s'))
    (hcut : ∀ {s e s'}, C.cut s e s' → C.cut (f s) e s') :
    C.Follows (modify f : EStateM ε₁ σ₁ Unit) (modify g : EStateM ε₂ σ₂ Unit) where
  both hs hx := by
    obtain rfl := returns_modify_iff.mp hx
    exact .inl ⟨_, returns_modify_iff.mpr rfl, hboth hs⟩
  cut hs hx := by
    obtain rfl := returns_modify_iff.mp hx
    exact hcut hs

/-- Reading the state, when what is done with it depends on what `P` says the two states share. -/
theorem follows_get {P : σ₁ → σ₂ → Prop} {f : σ₁ → EStateM ε₁ σ₁ α} {g : σ₂ → EStateM ε₂ σ₂ α}
    (hboth : ∀ {s s'}, C.both s s' → P s s') (hcut : ∀ {s e s'}, C.cut s e s' → ∃ t', P s t')
    (h : ∀ {s s'}, P s s' → C.Follows (f s) (g s')) : C.Follows (get >>= f) (get >>= g) where
  both hs hx := by
    obtain ⟨_, _, hget, hx⟩ := returns_bind_iff.mp hx
    obtain ⟨rfl, rfl⟩ := returns_get_iff.mp hget
    rcases (h (hboth hs)).both hs hx with ⟨t', hy, ht⟩ | ⟨e, t', hy, ht⟩
    · exact .inl ⟨t', returns_bind_iff.mpr ⟨_, _, returns_get_iff.mpr ⟨rfl, rfl⟩, hy⟩, ht⟩
    · exact .inr ⟨e, t', stops_bind_iff.mpr (.inr ⟨_, _, returns_get_iff.mpr ⟨rfl, rfl⟩, hy⟩), ht⟩
  cut hs hx := by
    obtain ⟨_, _, hget, hx⟩ := returns_bind_iff.mp hx
    obtain ⟨rfl, rfl⟩ := returns_get_iff.mp hget
    obtain ⟨t', ht⟩ := hcut hs
    exact (h ht).cut hs hx

/-- **Sequences follow sequences.** -/
theorem Follows.bind {x : EStateM ε₁ σ₁ α} {y : EStateM ε₂ σ₂ α} {f : α → EStateM ε₁ σ₁ β}
    {g : α → EStateM ε₂ σ₂ β} (hx : C.Follows x y) (hf : ∀ a, C.Follows (f a) (g a)) :
    C.Follows (x >>= f) (y >>= g) where
  both hs h := by
    obtain ⟨a, t, hxt, hfu⟩ := returns_bind_iff.mp h
    rcases hx.both hs hxt with ⟨t', hy, ht⟩ | ⟨e, t', hy, ht⟩
    · rcases (hf a).both ht hfu with ⟨u', hg, hu⟩ | ⟨e, u', hg, hu⟩
      · exact .inl ⟨u', returns_bind_iff.mpr ⟨a, t', hy, hg⟩, hu⟩
      · exact .inr ⟨e, u', stops_bind_iff.mpr (.inr ⟨a, t', hy, hg⟩), hu⟩
    · exact .inr ⟨e, t', stops_bind_iff.mpr (.inl hy), (hf a).cut ht hfu⟩
  cut hs h := by
    obtain ⟨a, t, hxt, hfu⟩ := returns_bind_iff.mp h
    exact (hf a).cut (hx.cut hs hxt) hfu

theorem follows_inOrder {l : List ι} {f : ι → EStateM ε₁ σ₁ Unit} {g : ι → EStateM ε₂ σ₂ Unit}
    (h : ∀ i ∈ l, C.Follows (f i) (g i)) : C.Follows (inOrder (l.map f)) (inOrder (l.map g)) := by
  induction l with
  | nil => exact follows_pure ()
  | cons i l ih =>
    exact (h i List.mem_cons_self).bind fun _ => ih fun j hj => h j (List.mem_cons_of_mem i hj)

theorem Follows.times {x : EStateM ε₁ σ₁ Unit} {y : EStateM ε₂ σ₂ Unit} (h : C.Follows x y)
    (n : ℕ) : C.Follows (times n x) (times n y) := by
  induction n with
  | zero => exact follows_pure ()
  | succ n ih => exact h.bind fun _ => ih

end Coupling

end Effect
