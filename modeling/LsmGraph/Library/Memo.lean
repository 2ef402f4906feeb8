import Mathlib.Control.Monad.Basic
import Mathlib.Logic.Function.Basic

/-! # Computations whose state does not show

A computation with a memo table returns what it would return without one, as long as the table holds
right values only. `Computes I x a` says that of a computation `x` of `StateM σ`: from every state of
the invariant `I` it returns `a` and leaves a state of `I`. The rules follow the constructs of the
monad; `TableOf` is the invariant of a table. -/

namespace Memo

variable {σ α β κ : Type} {I : σ → Prop}

/-- From every state of `I` the computation returns `a` and leaves a state of `I`. -/
def Computes (I : σ → Prop) (x : StateM σ α) (a : α) : Prop :=
  ∀ s, I s → (x.run s).1 = a ∧ I (x.run s).2

theorem Computes.pure (a : α) : Computes I (pure a) a := fun _ hs => ⟨rfl, hs⟩

/-- What follows starts from a state of the invariant. -/
theorem Computes.bind {x : StateM σ α} {f : α → StateM σ β} {a : α} {b : β} (h : Computes I x a)
    (hf : Computes I (f a) b) : Computes I (x >>= f) b := by
  intro s hs
  obtain ⟨hvalue, hstate⟩ := h s hs
  have hrun : (x >>= f).run s = (f (x.run s).1).run (x.run s).2 := rfl
  rw [hrun, hvalue]
  exact hf _ hstate

theorem Computes.map {x : StateM σ α} {a : α} (h : Computes I x a) (f : α → β) :
    Computes I (f <$> x) (f a) := by
  rw [← bind_pure_comp]
  exact h.bind (Computes.pure (f a))

/-- What is read from the state satisfies the invariant. -/
theorem Computes.get {f : σ → StateM σ β} {b : β} (h : ∀ s, I s → Computes I (f s) b) :
    Computes I (get >>= f) b := fun s hs => h s hs s hs

theorem Computes.modify {f : σ → σ} (h : ∀ s, I s → I (f s)) :
    Computes I (modify f : StateM σ PUnit) PUnit.unit := fun s hs => ⟨rfl, h s hs⟩

/-- **Loop rule.** -/
theorem Computes.foldlM {f : β → α → StateM σ β} {step : β → α → β} {l : List α}
    (h : ∀ b, ∀ a ∈ l, Computes I (f b a) (step b a)) (b : β) :
    Computes I (l.foldlM f b) (l.foldl step b) := by
  induction l generalizing b with
  | nil => exact Computes.pure b
  | cons a l ih =>
      rw [List.foldlM_cons, List.foldl_cons]
      exact (h b a List.mem_cons_self).bind (ih (fun b a ha => h b a (List.mem_cons_of_mem _ ha)) _)

/-- Every entry of the table is the value of the function. -/
def TableOf (f : κ → Option β) (table : κ → Option β) : Prop :=
  ∀ k b, table k = some b → f k = some b

theorem tableOf_empty (f : κ → Option β) : TableOf f fun _ => none :=
  fun _ _ h => by cases h

/-- A value is stored under its key. -/
theorem TableOf.update [DecidableEq κ] {f table : κ → Option β} (h : TableOf f table) {k : κ}
    {b : β} (hf : f k = some b) : TableOf f (Function.update table k (some b)) := by
  intro k' b' hb'
  by_cases heq : k' = k
  · subst heq
    rw [Function.update_self] at hb'
    exact hf.trans hb'
  · rw [Function.update_of_ne heq] at hb'
    exact h k' b' hb'

end Memo
