import Mathlib.Logic.Basic

/-! # Computations that may fail and keep their state

Rules for `EStateM ε σ`, whose result is a value or an error together with the state reached. A
successful first part is peeled off a computation (`bind_of_ok`), a failing one ends it
(`bind_of_error`), and a computation that succeeded is taken apart (`bind_eq_ok`). `FailsOr` compares
a computation with one that has fewer ways to fail. -/

namespace ErrorState

variable {ε σ α β : Type} {x : EStateM ε σ α} {f : α → EStateM ε σ β} {s t : σ}

/-- What follows a successful part runs from the state it left. -/
theorem bind_of_ok {a : α} (h : x s = .ok a t) : (x >>= f) s = f a t := by
  show EStateM.bind x f s = f a t
  rw [EStateM.bind, h]

/-- A failing part ends the computation, and the state it reached stays. -/
theorem bind_of_error {e : ε} (h : x s = .error e t) : (x >>= f) s = .error e t := by
  show EStateM.bind x f s = .error e t
  rw [EStateM.bind, h]

/-- A computation succeeds iff its parts do, one from the state the other left. -/
theorem bind_eq_ok {b : β} {u : σ} :
    (x >>= f) s = .ok b u ↔ ∃ a t, x s = .ok a t ∧ f a t = .ok b u := by
  cases h : x s with
  | ok a t =>
      rw [bind_of_ok h]
      refine ⟨fun hf => ⟨a, t, rfl, hf⟩, ?_⟩
      rintro ⟨a', t', heq, hf⟩
      cases heq
      exact hf
  | error e t =>
      rw [bind_of_error h]
      refine ⟨nofun, ?_⟩
      rintro ⟨a', t', heq, -⟩
      cases heq

/-- A computation fails iff its first part does, or the second does from the state the first left. -/
theorem bind_eq_error {e : ε} {u : σ} :
    (x >>= f) s = .error e u ↔ x s = .error e u ∨ ∃ a t, x s = .ok a t ∧ f a t = .error e u := by
  cases h : x s with
  | ok a t =>
      rw [bind_of_ok h]
      refine ⟨fun hf => Or.inr ⟨a, t, rfl, hf⟩, ?_⟩
      rintro (heq | ⟨a', t', heq, hf⟩)
      · cases heq
      · cases heq
        exact hf
  | error e' t =>
      rw [bind_of_error h]
      refine ⟨fun heq => Or.inl (by cases heq; rfl), ?_⟩
      rintro (heq | ⟨a', t', heq, -⟩)
      · cases heq
        rfl
      · cases heq

/-- From every state `x'` fails, or does what `x` does. -/
def FailsOr (x' x : EStateM ε σ α) : Prop := ∀ s, (∃ e t, x' s = .error e t) ∨ x' s = x s

theorem FailsOr.refl (x : EStateM ε σ α) : FailsOr x x := fun _ => Or.inr rfl

/-- The comparison passes through sequencing. -/
theorem FailsOr.bind {x' : EStateM ε σ α} {f' : α → EStateM ε σ β} (hx : FailsOr x' x)
    (hf : ∀ a, FailsOr (f' a) (f a)) : FailsOr (x' >>= f') (x >>= f) := by
  intro s
  rcases hx s with ⟨e, t, hfail⟩ | heq
  · exact Or.inl ⟨e, t, bind_of_error hfail⟩
  · cases hrun : x s with
    | error e t => exact Or.inl ⟨e, t, bind_of_error (heq.trans hrun)⟩
    | ok a t =>
        rw [bind_of_ok hrun, bind_of_ok (heq.trans hrun)]
        exact hf a t

/-- A result of `x'` is the result of `x`. -/
theorem FailsOr.eq_of_ok {x' : EStateM ε σ α} {a : α} (hx : FailsOr x' x) (h : x' s = .ok a t) :
    x s = .ok a t := by
  rcases hx s with ⟨e, u, hfail⟩ | heq
  · rw [hfail] at h
    cases h
  · exact heq.symm.trans h

/-- The state a computation left, whether it succeeded or not. -/
def stateOf : EStateM.Result ε σ α → σ
  | .ok _ s => s
  | .error _ s => s

@[simp] theorem stateOf_ok (a : α) : stateOf (.ok a s : EStateM.Result ε σ α) = s := rfl

@[simp] theorem stateOf_error (e : ε) : stateOf (.error e s : EStateM.Result ε σ α) = s := rfl

@[simp] theorem pure_apply (a : α) : (pure a : EStateM ε σ α) s = .ok a s := rfl

@[simp] theorem throw_apply (e : ε) : (throw e : EStateM ε σ α) s = .error e s := rfl

@[simp] theorem get_apply : (get : EStateM ε σ σ) s = .ok s s := rfl

@[simp] theorem set_apply : (set t : EStateM ε σ PUnit) s = .ok ⟨⟩ t := rfl

@[simp] theorem modify_apply (g : σ → σ) : (modify g : EStateM ε σ PUnit) s = .ok ⟨⟩ (g s) := rfl

end ErrorState
