import Mathlib.Data.List.Basic
import Mathlib.Tactic.Common
import Passgen.Effect.Rules

/-!
# Effect/Triple — triples with a postcondition for each way out, and ghost state

    { P } x { Q | E }            s ──x──▸ t
                                 │π       │π
                                πs ──y──▸ πt

A `Triple` says what holds after a computation that returns, and what after one that stops.  The
projection `π` *erases* ghost state: what runs over `π` is the same computation without it, so that
a triple about the ghost is a fact about the computation.
-/

namespace Effect

variable {ε σ τ α β ι : Type}

/-- From states in `P` the computation returns into `Q` or stops in `E`. -/
structure Triple (P : σ → Prop) (x : EStateM ε σ α) (Q : α → σ → Prop) (E : ε → σ → Prop) :
    Prop where
  returns : ∀ {s a t}, P s → Returns x s a t → Q a t
  stops : ∀ {s e t}, P s → Stops x s e t → E e t

/-! ## Triples -/

section Triple

variable {P R I : σ → Prop} {Q : α → σ → Prop} {E : ε → σ → Prop} {x : EStateM ε σ α}

theorem triple_pure {a : α} (h : ∀ {s}, P s → Q a s) : Triple P (pure a : EStateM ε σ α) Q E where
  returns hs hx := by
    obtain ⟨rfl, rfl⟩ := returns_pure_iff.mp hx
    exact h hs
  stops _ hx := absurd hx not_stops_pure

theorem triple_modify {f : σ → σ} {Q : Unit → σ → Prop} (h : ∀ {s}, P s → Q () (f s)) :
    Triple P (modify f : EStateM ε σ Unit) Q E where
  returns hs hx := returns_modify_iff.mp hx ▸ h hs
  stops _ hx := absurd hx not_stops_modify

/-- **Sequences**: the second part starts where the first one returns. -/
theorem Triple.bind {S : β → σ → Prop} {f : α → EStateM ε σ β} (hx : Triple P x Q E)
    (hf : ∀ a, Triple (Q a) (f a) S E) : Triple P (x >>= f) S E where
  returns hs h := by
    obtain ⟨a, t, hxt, hfu⟩ := returns_bind_iff.mp h
    exact (hf a).returns (hx.returns hs hxt) hfu
  stops hs h := by
    rcases stops_bind_iff.mp h with h | ⟨a, t, hxt, hfu⟩
    · exact hx.stops hs h
    · exact (hf a).stops (hx.returns hs hxt) hfu

/-- What does not depend on the state is assumed. -/
theorem triple_and {p : Prop} (h : p → Triple P x Q E) : Triple (fun s => P s ∧ p) x Q E where
  returns hs hx := (h hs.2).returns hs.1 hx
  stops hs hx := (h hs.2).stops hs.1 hx

/-- **An invariant of the parts is one of the sequence.** -/
theorem triple_inOrder {xs : List (EStateM ε σ Unit)} (h : ∀ x ∈ xs, Triple I x (fun _ => I) E) :
    Triple I (inOrder xs) (fun _ => I) E := by
  induction xs with
  | nil => exact triple_pure id
  | cons x xs ih =>
    exact (h x List.mem_cons_self).bind fun _ => ih fun y hy => h y (List.mem_cons_of_mem x hy)

/-- **An invariant of one run is one of any number.** -/
theorem Triple.times {x : EStateM ε σ Unit} (h : Triple I x (fun _ => I) E) (n : ℕ) :
    Triple I (times n x) (fun _ => I) E := by
  induction n with
  | zero => exact triple_pure id
  | succ n ih => exact h.bind fun _ => ih

end Triple

/-! ## Ghost state -/

/-- `y` is `x` without what `π` forgets of its state. -/
structure Erases (π : σ → τ) (x : EStateM ε σ α) (y : EStateM ε τ α) : Prop where
  returns : ∀ {s a t}, Returns x s a t → Returns y (π s) a (π t)
  stops : ∀ {s e t}, Stops x s e t → Stops y (π s) e (π t)

section Erases

variable {π : σ → τ} {x : EStateM ε σ α} {y : EStateM ε τ α}

/-- What returns without the ghost does so with it. -/
theorem Erases.exists_returns (h : Erases π x y) {s : σ} {a : α} {t : τ}
    (hy : Returns y (π s) a t) : ∃ u, Returns x s a u ∧ π u = t := by
  rcases returns_or_stops x s with ⟨b, u, hx⟩ | ⟨e, u, hx⟩
  · obtain ⟨rfl, rfl⟩ : b = a ∧ π u = t := by simpa [Returns] using (h.returns hx).symm.trans hy
    exact ⟨u, hx, rfl⟩
  · exact absurd ((h.stops hx).symm.trans hy) (by simp)

theorem erases_pure (a : α) : Erases π (pure a : EStateM ε σ α) (pure a) where
  returns hx := by
    obtain ⟨rfl, rfl⟩ := returns_pure_iff.mp hx
    exact returns_pure_iff.mpr ⟨rfl, rfl⟩
  stops hx := absurd hx not_stops_pure

theorem erases_throw (e : ε) : Erases π (throw e : EStateM ε σ α) (throw e) where
  returns hx := absurd hx returns_throw
  stops hx := by
    obtain ⟨rfl, rfl⟩ := stops_throw_iff.mp hx
    exact stops_throw_iff.mpr ⟨rfl, rfl⟩

theorem erases_modify {f : σ → σ} {g : τ → τ} (h : ∀ s, π (f s) = g (π s)) :
    Erases π (modify f : EStateM ε σ Unit) (modify g) where
  returns hx := returns_modify_iff.mpr (returns_modify_iff.mp hx ▸ h _)
  stops hx := absurd hx not_stops_modify

theorem Erases.bind {f : α → EStateM ε σ β} {g : α → EStateM ε τ β} (hx : Erases π x y)
    (hf : ∀ a, Erases π (f a) (g a)) : Erases π (x >>= f) (y >>= g) where
  returns h := by
    obtain ⟨a, t, hxt, hfu⟩ := returns_bind_iff.mp h
    exact returns_bind_iff.mpr ⟨a, π t, hx.returns hxt, (hf a).returns hfu⟩
  stops h := by
    refine stops_bind_iff.mpr ?_
    rcases stops_bind_iff.mp h with h | ⟨a, t, hxt, hfu⟩
    · exact .inl (hx.stops h)
    · exact .inr ⟨a, π t, hx.returns hxt, (hf a).stops hfu⟩

/-- **A change of the ghost is erased.** -/
theorem Erases.ghost {f : σ → σ} (h : Erases π x y) (hf : ∀ s, π (f s) = π s) :
    Erases π (modify f >>= fun _ => x) y where
  returns hx := by
    obtain ⟨_, t, hmodify, hx⟩ := returns_bind_iff.mp hx
    obtain rfl := returns_modify_iff.mp hmodify
    exact hf _ ▸ h.returns hx
  stops hx := by
    rcases stops_bind_iff.mp hx with hx | ⟨_, t, hmodify, hx⟩
    · exact absurd hx not_stops_modify
    · obtain rfl := returns_modify_iff.mp hmodify
      exact hf _ ▸ h.stops hx

theorem erases_inOrder {l : List ι} {f : ι → EStateM ε σ Unit} {g : ι → EStateM ε τ Unit}
    (h : ∀ i ∈ l, Erases π (f i) (g i)) : Erases π (inOrder (l.map f)) (inOrder (l.map g)) := by
  induction l with
  | nil => exact erases_pure ()
  | cons i l ih =>
    exact (h i List.mem_cons_self).bind fun _ => ih fun j hj => h j (List.mem_cons_of_mem i hj)

theorem Erases.times {x : EStateM ε σ Unit} {y : EStateM ε τ Unit} (h : Erases π x y) (n : ℕ) :
    Erases π (times n x) (times n y) := by
  induction n with
  | zero => exact erases_pure ()
  | succ n ih => exact h.bind fun _ => ih

end Erases

end Effect
