import Mathlib.Algebra.Ring.PUnit
import Mathlib.Data.List.Basic
import Mathlib.Tactic.Common
import Passgen.Effect.Rules

/-!
# Effect/Reached — the states in which the parts of a sequence start

    s ─ f i₁ ▸ t ─ f i₂ ▸ u ─ f i₃ ▪
    │          │          │
    i₁         i₂         i₃

A part of a sequence starts in a state only if those before it have returned.  A promise that each
part keeps from where it starts is kept by the sequence, and up to where a part starts; `invariant`
is the promise that a property of the states goes on to hold.
-/

namespace Effect

variable {ε σ α ι : Type} {f : ι → EStateM ε σ Unit} {l : List ι} {s t u : σ}

/-- In order from `s`, the part `i` starts in `t`. -/
inductive Reaches (f : ι → EStateM ε σ Unit) : List ι → σ → ι → σ → Prop where
  | here {i : ι} {l : List ι} {s : σ} : Reaches f (i :: l) s i s
  | later {i j : ι} {l : List ι} {s t u : σ} (hi : Returns (f i) s () t)
      (hj : Reaches f l t j u) : Reaches f (i :: l) s j u

theorem Reaches.mem {i : ι} (h : Reaches f l s i t) : i ∈ l := by
  induction h with
  | here => exact List.mem_cons_self
  | later _ _ ih => exact List.mem_cons_of_mem _ ih

/-- A part that stops stops the sequence. -/
theorem Reaches.stops {i : ι} {e : ε} (h : Reaches f l s i t) (hi : Stops (f i) t e u) :
    Stops (inOrder (l.map f)) s e u := by
  induction h with
  | here => exact stops_bind_iff.mpr (.inl hi)
  | later hj _ ih => exact stops_bind_iff.mpr (.inr ⟨(), _, hj, ih hi⟩)

/-- Copies are parts. -/
theorem times_eq_inOrder (x : EStateM ε σ Unit) (n : ℕ) :
    times n x = inOrder ((List.replicate n ()).map fun _ => x) := by
  induction n with
  | zero => rfl
  | succ n ih => rw [times, ih, List.replicate_succ, List.map_cons, inOrder]

namespace Guarantee

variable {M : Type} [Monoid M] {G : Guarantee σ M}

/-- First what keeps to nothing, then the rest from where that returns. -/
theorem HoldsAt.next {β : Type} {x : EStateM ε σ α} {g : α → EStateM ε σ β} {n : M}
    (hx : G.HoldsAt 1 x s) (hg : ∀ a t, Returns x s a t → G.HoldsAt n (g a) t) :
    G.HoldsAt n (x >>= g) s :=
  one_mul n ▸ hx.bind hg

/-- **A sequence keeps a promise** that its parts keep from where they start. -/
theorem holdsAt_inOrder (h : ∀ i t, Reaches f l s i t → G.HoldsAt 1 (f i) t) :
    G.HoldsAt 1 (inOrder (l.map f)) s := by
  induction l generalizing s with
  | nil => exact holds_pure () s
  | cons i l ih =>
    rw [List.map_cons, inOrder]
    exact (h i s .here).next fun _ t ht => ih fun j u hj => h j u (.later ht hj)

theorem holdsAt_times {x : EStateM ε σ Unit} {n : ℕ}
    (h : ∀ t, Reaches (fun _ => x) (List.replicate n ()) s () t → G.HoldsAt 1 x t) :
    G.HoldsAt 1 (times n x) s :=
  times_eq_inOrder x n ▸ holdsAt_inOrder fun _ t ht => h t ht

/-- **Up to where a part starts** the promise is kept. -/
theorem returns_of_reaches {i : ι} (hreach : Reaches f l s i t)
    (h : ∀ j u, Reaches f l s j u → G.HoldsAt 1 (f j) u) : G.returns 1 s t := by
  induction hreach with
  | here => exact G.refl _
  | later hi _ ih =>
    rw [← one_mul (1 : M)]
    exact G.trans ((h _ _ .here).returns hi) (ih fun j u hj => h j u (.later hi hj))

end Guarantee

/-! ## Invariants -/

/-- What holds goes on to hold. -/
def invariant (P : σ → Prop) : Guarantee σ Unit where
  returns _ s t := P s → P t
  stops s t := P s → P t
  refl _ := id
  trans hst htu := htu ∘ hst
  stops_refl _ := id
  after hst htu := htu ∘ hst

variable {P : σ → Prop} {x : EStateM ε σ α}

/-- An invariant has to be kept from where it holds. -/
theorem holdsAt_invariant (h : P s → (invariant P).HoldsAt 1 x s) :
    (invariant P).HoldsAt 1 x s :=
  ⟨fun hx hs => (h hs).returns hx hs, fun hx hs => (h hs).stops hx hs⟩

/-- **An invariant** is one of the state that is left. -/
theorem holdsAt_invariant_iff : (invariant P).HoldsAt 1 x s ↔ (P s → P (final x s)) := by
  refine ⟨fun h hs => ?_, fun h => ⟨fun hx hs => ?_, fun hx hs => ?_⟩⟩
  · rcases returns_or_stops x s with ⟨a, t, hx⟩ | ⟨e, t, hx⟩
    · exact final_of_returns hx ▸ h.returns hx hs
    · exact final_of_stops hx ▸ h.stops hx hs
  · exact final_of_returns hx ▸ h hs
  · exact final_of_stops hx ▸ h hs

end Effect
