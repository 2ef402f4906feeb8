import Mathlib.Logic.Relation

/-! # Runs of a transition function

A machine is a partial step function on a state and an action; `none` means that the action is not
enabled. `Reaches step P s t` says that some sequence of enabled actions leads from `s` to `t`, each
one meeting the side condition `P` in the state where it is taken. An invariant that every such step
preserves holds wherever the machine gets to (`Reaches.invariant`), and a concrete schedule is a run
(`reaches_of_run`) that can be tried out (`exists_run_of_isSome`). -/

namespace Transition

variable {σ α : Type*} {step : σ → α → Option σ} {P Q : σ → α → Prop}

variable (step P) in
/-- `t` is reached from `s` by enabled actions that each meet `P` where they are taken. -/
inductive Reaches (s : σ) : σ → Prop
  | refl : Reaches s s
  | tail {t u : σ} (a : α) : Reaches s t → P t a → step t a = some u → Reaches s u

/-- **Invariant rule.** What the first state has and every step preserves, every state has. -/
theorem Reaches.invariant {I : σ → Prop} {s t : σ} (h : Reaches step P s t) (hinit : I s)
    (hstep : ∀ t a u, I t → P t a → step t a = some u → I u) : I t := by
  induction h with
  | refl => exact hinit
  | tail a _ hP hs ih => exact hstep _ a _ ih hP hs

theorem Reaches.trans {s t u : σ} (hst : Reaches step P s t) (htu : Reaches step P t u) :
    Reaches step P s u := by
  induction htu with
  | refl => exact hst
  | tail a _ hP hs ih => exact ih.tail a hP hs

/-- Weakening the side condition keeps a run. -/
theorem Reaches.imp {s t : σ} (h : Reaches step P s t) (hPQ : ∀ s a, P s a → Q s a) :
    Reaches step Q s t := by
  induction h with
  | refl => exact .refl
  | tail a _ hP hs ih => exact ih.tail a (hPQ _ a hP) hs

variable (step P) in
/-- Take a list of actions in order, as long as each is enabled and meets the side condition. -/
def run [∀ s a, Decidable (P s a)] : σ → List α → Option σ
  | s, [] => some s
  | s, a :: as => if P s a then (step s a).bind fun t => run t as else none

/-- A schedule that goes through is a run. -/
theorem reaches_of_run [∀ s a, Decidable (P s a)] {s t : σ} {as : List α}
    (h : run step P s as = some t) : Reaches step P s t := by
  induction as generalizing s with
  | nil =>
      rw [run, Option.some.injEq] at h
      exact h ▸ .refl
  | cons a as ih =>
      rw [run] at h
      split at h
      · rename_i hP
        obtain ⟨u, hu, hrun⟩ := Option.bind_eq_some_iff.mp h
        exact (Reaches.refl.tail a hP hu).trans (ih hrun)
      · exact absurd h nofun

/-- A schedule that was tried out and went through. -/
theorem exists_run_of_isSome [∀ s a, Decidable (P s a)] {β : Type*} {init : Option β}
    {start : β → σ} {as : List α} (h : (init.bind fun b => run step P (start b) as).isSome) :
    ∃ b t, init = some b ∧ run step P (start b) as = some t := by
  obtain ⟨t, ht⟩ := Option.isSome_iff_exists.mp h
  obtain ⟨b, hb, ht⟩ := Option.bind_eq_some_iff.mp ht
  exact ⟨b, t, hb, ht⟩

end Transition
