import Mathlib.Algebra.Group.Defs
import Mathlib.Data.List.Basic
import Mathlib.Tactic.Common

/-!
# Effect/Rules — rules for computations with a state that survives a stop

A computation returns a value or stops with an error, and leaves a state either way.  `Returns` and
`Stops` are its big-step relations.  A `Guarantee` is what it promises about the states before and
after it in either case, graded by a monoid; sequences keep it, and their grades multiply.
-/

namespace Effect

variable {ε σ α β : Type}

/-- From `s` the computation returns `a` and leaves `t`. -/
def Returns (x : EStateM ε σ α) (s : σ) (a : α) (t : σ) : Prop := x.run s = .ok a t

/-- From `s` the computation stops with `e` and leaves `t`. -/
def Stops (x : EStateM ε σ α) (s : σ) (e : ε) (t : σ) : Prop := x.run s = .error e t

/-- The state a computation leaves. -/
def final (x : EStateM ε σ α) (s : σ) : σ :=
  match x.run s with
  | .ok _ t => t
  | .error _ t => t

/-- All computations in order. -/
def inOrder : List (EStateM ε σ Unit) → EStateM ε σ Unit
  | [] => pure ()
  | x :: xs => do
    x
    inOrder xs

/-- The computation `n` times. -/
def times : ℕ → EStateM ε σ Unit → EStateM ε σ Unit
  | 0, _ => pure ()
  | n + 1, x => do
    x
    times n x

/-! ## Big steps -/

theorem returns_pure_iff {a b : α} {s t : σ} :
    Returns (pure a : EStateM ε σ α) s b t ↔ b = a ∧ t = s := by
  rw [Returns, EStateM.run_pure, EStateM.Result.ok.injEq, eq_comm, eq_comm (a := s)]

/-- **A sequence returns when both parts do.** -/
theorem returns_bind_iff {x : EStateM ε σ α} {f : α → EStateM ε σ β} {s u : σ} {b : β} :
    Returns (x >>= f) s b u ↔ ∃ a t, Returns x s a t ∧ Returns (f a) t b u := by
  rw [Returns, EStateM.run_bind]
  constructor
  · intro h
    cases hx : x.run s with
    | ok a t =>
      rw [hx] at h
      exact ⟨a, t, hx, h⟩
    | error e t =>
      rw [hx] at h
      exact absurd h (by simp)
  · rintro ⟨a, t, hx, hf⟩
    rw [Returns] at hx
    rw [hx]
    exact hf

theorem returns_throw {e : ε} {s t : σ} {a : α} : ¬Returns (throw e : EStateM ε σ α) s a t := by
  intro h
  have herror : EStateM.Result.error e s = EStateM.Result.ok a t := h
  exact absurd herror (by simp)

theorem returns_modify_iff {f : σ → σ} {s t : σ} {a : Unit} :
    Returns (modify f : EStateM ε σ Unit) s a t ↔ t = f s := by
  rw [Returns, EStateM.run_modify, EStateM.Result.ok.injEq, eq_comm (a := f s)]
  exact and_iff_right rfl

theorem returns_get_iff {s t a : σ} :
    Returns (get : EStateM ε σ σ) s a t ↔ a = s ∧ t = s := by
  rw [Returns, EStateM.run_get, EStateM.Result.ok.injEq, eq_comm, eq_comm (a := s)]

/-- A part that returns is run first. -/
theorem Returns.run_bind {x : EStateM ε σ α} {s t : σ} {a : α} (h : Returns x s a t)
    (f : α → EStateM ε σ β) : (x >>= f).run s = (f a).run t := by
  rw [Returns] at h
  rw [EStateM.run_bind, h]

/-- A change of the state is made first. -/
theorem run_modify_bind (g : σ → σ) (f : Unit → EStateM ε σ β) (s : σ) :
    (modify g >>= f).run s = (f ()).run (g s) :=
  (returns_modify_iff.mpr rfl).run_bind f

/-- **A sequence stops where its first part stops, or its second part does after it.** -/
theorem stops_bind_iff {x : EStateM ε σ α} {f : α → EStateM ε σ β} {s u : σ} {e : ε} :
    Stops (x >>= f) s e u ↔ Stops x s e u ∨ ∃ a t, Returns x s a t ∧ Stops (f a) t e u := by
  rw [Stops, Stops, EStateM.run_bind]
  cases hx : x.run s with
  | ok a t =>
    constructor
    · exact fun h => .inr ⟨a, t, hx, h⟩
    · rintro (h | ⟨b, v, hb, h⟩)
      · exact absurd h (by simp)
      · obtain ⟨rfl, rfl⟩ : a = b ∧ t = v := by simpa [Returns, hx] using hb
        exact h
  | error d t =>
    constructor
    · exact fun h => .inl (by simpa using h)
    · rintro (h | ⟨b, v, hb, -⟩)
      · simpa using h
      · exact absurd hb (by simp [Returns, hx])

theorem not_stops_pure {a : α} {s t : σ} {e : ε} : ¬Stops (pure a : EStateM ε σ α) s e t :=
  fun h => absurd h (by simp [Stops])

theorem not_stops_modify {f : σ → σ} {s t : σ} {e : ε} :
    ¬Stops (modify f : EStateM ε σ Unit) s e t := fun h => absurd h (by simp [Stops])

theorem stops_throw_iff {d e : ε} {s t : σ} :
    Stops (throw d : EStateM ε σ α) s e t ↔ e = d ∧ t = s := by
  have hrun : (throw d : EStateM ε σ α).run s = .error d s := rfl
  rw [Stops, hrun, EStateM.Result.error.injEq, eq_comm, eq_comm (a := s)]

/-- A computation returns or stops. -/
theorem returns_or_stops (x : EStateM ε σ α) (s : σ) :
    (∃ a t, Returns x s a t) ∨ ∃ e t, Stops x s e t := by
  cases h : x.run s with
  | ok a t => exact .inl ⟨a, t, h⟩
  | error e t => exact .inr ⟨e, t, h⟩

theorem final_of_returns {x : EStateM ε σ α} {s t : σ} {a : α} (h : Returns x s a t) :
    final x s = t := by
  rw [Returns] at h
  rw [final, h]

theorem final_of_stops {x : EStateM ε σ α} {s t : σ} {e : ε} (h : Stops x s e t) :
    final x s = t := by
  rw [Stops] at h
  rw [final, h]

/-! ## What a computation does to the state -/

/-- What a computation promises about the states before and after it: when it returns, `returns`, up
to a grade that is multiplied along sequences; when it stops, `stops`. -/
structure Guarantee (σ M : Type) [Monoid M] where
  returns : M → σ → σ → Prop
  stops : σ → σ → Prop
  refl : ∀ s, returns 1 s s
  trans : ∀ {m n s t u}, returns m s t → returns n t u → returns (m * n) s u
  stops_refl : ∀ s, stops s s
  after : ∀ {m s t u}, returns m s t → stops t u → stops s u

namespace Guarantee

variable {M : Type} [Monoid M] (G : Guarantee σ M) (m n : M)

/-- From `s`, the computation keeps the promise at grade `m`. -/
structure HoldsAt (x : EStateM ε σ α) (s : σ) : Prop where
  returns : ∀ {a t}, Returns x s a t → G.returns m s t
  stops : ∀ {e t}, Stops x s e t → G.stops s t

/-- The computation keeps the promise at grade `m`. -/
def Holds (x : EStateM ε σ α) : Prop := ∀ s, G.HoldsAt m x s

variable {G m n}

theorem holds_pure (a : α) : G.Holds 1 (pure a : EStateM ε σ α) := by
  refine fun s => ⟨fun h => ?_, fun h => absurd h not_stops_pure⟩
  obtain ⟨-, rfl⟩ := returns_pure_iff.mp h
  exact G.refl _

theorem holds_throw (e : ε) : G.Holds m (throw e : EStateM ε σ α) := by
  refine fun s => ⟨fun h => absurd h returns_throw, fun h => ?_⟩
  obtain ⟨-, rfl⟩ := stops_throw_iff.mp h
  exact G.stops_refl _

theorem holds_modify {f : σ → σ} (h : ∀ s, G.returns m s (f s)) :
    G.Holds m (modify f : EStateM ε σ Unit) :=
  fun s => ⟨fun hx => returns_modify_iff.mp hx ▸ h s, fun hx => absurd hx not_stops_modify⟩

/-- **A sequence keeps the promise when its parts do**, the second one from where the first
returns. -/
theorem HoldsAt.bind {x : EStateM ε σ α} {f : α → EStateM ε σ β} {s : σ} (hx : G.HoldsAt m x s)
    (hf : ∀ a t, Returns x s a t → G.HoldsAt n (f a) t) : G.HoldsAt (m * n) (x >>= f) s := by
  constructor
  · intro b u h
    obtain ⟨a, t, hxt, hfu⟩ := returns_bind_iff.mp h
    exact G.trans (hx.returns hxt) ((hf a t hxt).returns hfu)
  · intro e u h
    rcases stops_bind_iff.mp h with h | ⟨a, t, hxt, hfu⟩
    · exact hx.stops h
    · exact G.after (hx.returns hxt) ((hf a t hxt).stops hfu)

theorem Holds.bind {x : EStateM ε σ α} {f : α → EStateM ε σ β} (hx : G.Holds m x)
    (hf : ∀ a, G.Holds n (f a)) : G.Holds (m * n) (x >>= f) :=
  fun s => (hx s).bind fun a t _ => hf a t

/-- A sequence whose first part has no grade. -/
theorem Holds.then {x : EStateM ε σ α} {f : α → EStateM ε σ β} (hx : G.Holds 1 x)
    (hf : ∀ a, G.Holds n (f a)) : G.Holds n (x >>= f) := by
  rw [← one_mul n]
  exact hx.bind hf

theorem holds_inOrder {xs : List (EStateM ε σ Unit)} (h : ∀ x ∈ xs, G.Holds 1 x) :
    G.Holds 1 (inOrder xs) := by
  induction xs with
  | nil => exact holds_pure ()
  | cons x xs ih =>
    exact (h x List.mem_cons_self).then fun _ => ih fun y hy => h y (List.mem_cons_of_mem x hy)

theorem Holds.times {x : EStateM ε σ Unit} (h : G.Holds 1 x) (n : ℕ) : G.Holds 1 (times n x) := by
  induction n with
  | zero => exact holds_pure ()
  | succ n ih => exact h.then fun _ => ih

end Guarantee

end Effect
