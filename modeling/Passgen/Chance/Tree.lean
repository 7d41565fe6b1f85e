import Mathlib.Probability.Distributions.Uniform
import Mathlib.Tactic.Common

/-!
# Chance/Tree — computations by uniform draws

    draw 3 ─ 0 ▸ a
           ├ 1 ▸ draw 2 ─ 0 ▸ a
           │            └ 1 ▸ b
           └ 2 ▸ b

A tree says what a computation draws, below which bounds, and where each choice leads.  Its law is
the distribution of the result when every draw is uniform and independent of those before; a path is
a list of draws that leads to a result.
-/

namespace Chance

open PMF

/-- A computation by draws. -/
inductive Tree (α : Type*) where
  | done (a : α)
  | draw (bound : ℕ) (pos : 0 < bound) (next : ℕ → Tree α)

/-- A uniform draw below a bound. -/
noncomputable def below (bound : ℕ) (pos : 0 < bound) : PMF ℕ :=
  uniformOfFinset (Finset.range bound) (Finset.nonempty_range_iff.mpr pos.ne')

variable {α β : Type*}

theorem below_apply {bound : ℕ} (pos : 0 < bound) (c : ℕ) :
    below bound pos c = if c < bound then (bound : ENNReal)⁻¹ else 0 := by
  rw [below, uniformOfFinset_apply, Finset.card_range]
  simp only [Finset.mem_range]

/-- What follows a draw matters below its bound. -/
theorem below_bind_congr {bound : ℕ} {pos : 0 < bound} {f g : ℕ → PMF α}
    (h : ∀ c < bound, f c = g c) : (below bound pos).bind f = (below bound pos).bind g := by
  ext a
  rw [bind_apply, bind_apply]
  refine tsum_congr fun c => ?_
  by_cases hc : c < bound
  · rw [h c hc]
  · rw [below_apply, if_neg hc, zero_mul, zero_mul]

namespace Tree

/-- One computation after the other. -/
def bind : Tree α → (α → Tree β) → Tree β
  | done a, f => f a
  | draw bound pos next, f => draw bound pos fun c => (next c).bind f

/-- The distribution of the result. -/
noncomputable def law : Tree α → PMF α
  | done a => PMF.pure a
  | draw bound pos next => (below bound pos).bind fun c => (next c).law

/-- The draws that lead to a result, each with its bound. -/
inductive Path : Tree α → List (ℕ × ℕ) → α → Prop where
  | done (a : α) : Path (done a) [] a
  | draw {bound c : ℕ} {pos : 0 < bound} {next : ℕ → Tree α} {path : List (ℕ × ℕ)} {a : α}
      (hc : c < bound) (h : Path (next c) path a) : Path (draw bound pos next) ((bound, c) :: path) a

/-- **Sequences compose laws.** -/
theorem law_bind (t : Tree α) (f : α → Tree β) :
    (t.bind f).law = t.law.bind fun a => (f a).law := by
  induction t with
  | done a => rw [bind, law, pure_bind]
  | draw bound pos next ih =>
    rw [bind, law, law, bind_bind]
    exact congrArg _ (funext ih)

/-- **A path of a sequence** is a path of its first part and one of what follows. -/
theorem Path.of_bind {t : Tree α} {f : α → Tree β} {path : List (ℕ × ℕ)} {b : β}
    (h : (t.bind f).Path path b) :
    ∃ first a second, t.Path first a ∧ (f a).Path second b ∧ path = first ++ second := by
  induction t generalizing path with
  | done a => exact ⟨[], a, path, .done a, h, rfl⟩
  | draw bound pos next ih =>
    cases h with
    | draw hc h =>
      obtain ⟨first, a, second, hfirst, hsecond, rfl⟩ := ih _ h
      exact ⟨_ :: first, a, second, .draw hc hfirst, hsecond, rfl⟩

end Tree

end Chance
