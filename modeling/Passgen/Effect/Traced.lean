import Mathlib.Data.List.Basic
import Mathlib.Tactic.Common

/-!
# Effect/Traced — computations that log what they do

    x : e₁ e₂ ─▸ a        f a : e₃ ─▸ b        x >>= f : e₁ e₂ e₃ ─▸ b
    x : e₁ e₂ ─▸ ▪                             x >>= f : e₁ e₂ ─▸ ▪

A computation logs events and answers, or gets stuck; what it has logged by then stays logged.
`All` says that every event of a computation satisfies a predicate, whether or not it answers, and
has a rule for each way to build one.  The answers are those of the computation in `Option`.
-/

namespace Effect

/-- The events of a computation, and what it answers if it does not get stuck. -/
structure Traced (ε α : Type*) where
  log : List ε
  answer : Option α

namespace Traced

variable {ε α β γ : Type} {p q : ε → Prop}

/-- Logs an event. -/
def emit (e : ε) : Traced ε Unit := ⟨[e], some ()⟩

/-- Gets stuck. -/
def stuck : Traced ε α := ⟨[], none⟩

instance : Monad (Traced ε) where
  pure a := ⟨[], some a⟩
  bind x f :=
    match x.answer with
    | some a => ⟨x.log ++ (f a).log, (f a).answer⟩
    | none => ⟨x.log, none⟩

instance : LawfulMonad (Traced ε) := by
  refine LawfulMonad.mk' (Traced ε) ?_ (fun a f => rfl) ?_
  · rintro α ⟨log, _ | a⟩
    · rfl
    · exact congrArg (Traced.mk · (some a)) (List.append_nil log)
  · rintro α β γ ⟨log, _ | a⟩ f g
    · rfl
    change (⟨log ++ (f a).log, (f a).answer⟩ >>= g : Traced ε γ) =
      ⟨log ++ (f a >>= g).log, (f a >>= g).answer⟩
    rcases f a with ⟨log', _ | b⟩
    · rfl
    · exact congrArg (Traced.mk · (g b).answer) (List.append_assoc log log' (g b).log)

/-- Goes on with the second computation where the first one finds nothing. -/
def orElse (x : Traced ε (Option α)) (y : Traced ε α) : Traced ε α := do
  match ← x with
  | some a => pure a
  | none => y

/-! ## Answers -/

@[simp] theorem answer_pure (a : α) : (pure a : Traced ε α).answer = some a := rfl

@[simp] theorem answer_emit (e : ε) : (emit e).answer = some () := rfl

@[simp] theorem answer_stuck : (stuck : Traced ε α).answer = none := rfl

@[simp] theorem answer_bind (x : Traced ε α) (f : α → Traced ε β) :
    (x >>= f).answer = x.answer.bind fun a => (f a).answer := by
  change (match x.answer with | some a => _ | none => _ : Traced ε β).answer = _
  cases x.answer <;> rfl

theorem answer_map (f : α → β) (x : Traced ε α) : (f <$> x).answer = x.answer.map f := by
  rw [map_eq_pure_bind, answer_bind]
  cases x.answer <;> rfl

theorem answer_orElse {x : Traced ε (Option α)} {a : Option α} (h : x.answer = some a)
    (y : Traced ε α) : (orElse x y).answer = a.or y.answer := by
  rw [orElse, answer_bind, h]
  cases a <;> rfl

/-- A loop answers what it answers in `Option`. -/
theorem answer_foldlM {f : β → α → Traced ε β} {g : β → α → Option β}
    (h : ∀ b a, (f b a).answer = g b a) (l : List α) (b : β) :
    (l.foldlM f b).answer = l.foldlM g b := by
  induction l generalizing b with
  | nil => rfl
  | cons a l ih =>
    rw [List.foldlM_cons, List.foldlM_cons, answer_bind, h]
    exact congrArg _ (funext ih)

/-! ## Logs -/

theorem log_bind_of_answer {x : Traced ε α} {f : α → Traced ε β} {a : α}
    (h : x.answer = some a) : (x >>= f).log = x.log ++ (f a).log := by
  change (match x.answer with | some a => _ | none => _ : Traced ε β).log = _
  rw [h]

/-- **A loop that answers** has logged what each of its steps logs. -/
theorem log_foldlM {f : β → α → Traced ε β} {g : α → List ε} (h : ∀ b a, (f b a).log = g a)
    {l : List α} {b b' : β} (hanswer : (l.foldlM f b).answer = some b') :
    (l.foldlM f b).log = l.flatMap g := by
  induction l generalizing b with
  | nil => rfl
  | cons a l ih =>
    rw [List.foldlM_cons] at hanswer ⊢
    obtain ⟨c, hc, hrest⟩ := Option.bind_eq_some_iff.mp ((answer_bind _ _).symm.trans hanswer)
    rw [log_bind_of_answer hc, h, ih hrest, List.flatMap_cons]

/-! ## Events -/

/-- Every event satisfies the predicate. -/
def All (p : ε → Prop) (x : Traced ε α) : Prop := ∀ e ∈ x.log, p e

theorem all_pure (a : α) : (pure a : Traced ε α).All p := fun _ he => absurd he List.not_mem_nil

theorem all_stuck : (stuck : Traced ε α).All p := fun _ he => absurd he List.not_mem_nil

theorem all_emit_iff {e : ε} : (emit e).All p ↔ p e := List.forall_mem_singleton

theorem All.mono {x : Traced ε α} (h : x.All p) (hle : ∀ e, p e → q e) : x.All q :=
  fun e he => hle e (h e he)

/-- **A sequence**: the events of its first part, and those of the second part if there is an
answer to go on with. -/
theorem all_bind_iff {x : Traced ε α} {f : α → Traced ε β} :
    (x >>= f).All p ↔ x.All p ∧ ∀ a, x.answer = some a → (f a).All p := by
  change (match x.answer with | some a => _ | none => _ : Traced ε β).All p ↔ _
  cases x.answer with
  | none => exact (and_iff_left fun a h => absurd h (by simp)).symm
  | some a =>
    simp only [Option.some.injEq, forall_eq']
    exact List.forall_mem_append

theorem All.bind {x : Traced ε α} {f : α → Traced ε β} (hx : x.All p)
    (hf : ∀ a, x.answer = some a → (f a).All p) : (x >>= f).All p := all_bind_iff.mpr ⟨hx, hf⟩

theorem all_map_iff {x : Traced ε α} {f : α → β} : (f <$> x).All p ↔ x.All p := by
  rw [map_eq_pure_bind, all_bind_iff]
  exact and_iff_left fun _ _ => all_pure _

/-- A sequence whose first part has a known answer. -/
theorem All.bind_of_answer {x : Traced ε α} {f : α → Traced ε β} {a : α} (hx : x.All p)
    (ha : x.answer = some a) (hf : (f a).All p) : (x >>= f).All p :=
  hx.bind fun _ hb => Option.some.inj (ha.symm.trans hb) ▸ hf

theorem All.orElse {x : Traced ε (Option α)} {y : Traced ε α} (hx : x.All p) (hy : y.All p) :
    (orElse x y).All p := by
  refine hx.bind fun a _ => ?_
  cases a with
  | some a => exact all_pure a
  | none => exact hy

/-- **A loop**, whose steps keep an invariant. -/
theorem all_foldlM {I : β → Prop} {f : β → α → Traced ε β} {l : List α}
    (h : ∀ a ∈ l, ∀ b, I b → (f b a).All p ∧ ∀ b', (f b a).answer = some b' → I b') {b : β}
    (hb : I b) : (l.foldlM f b).All p := by
  induction l generalizing b with
  | nil => exact all_pure b
  | cons a l ih =>
    obtain ⟨hall, hkeep⟩ := h a List.mem_cons_self b hb
    rw [List.foldlM_cons]
    exact hall.bind fun b' hb' => ih (fun a ha => h a (List.mem_cons_of_mem _ ha)) (hkeep b' hb')

end Traced

end Effect
