import Mathlib.Data.List.Basic

/-! # Texts with separators

A list of pieces is written with a separator between two pieces (`joinWith`) or an end mark after
each (`terminate`). -/

namespace Separated

variable {α : Type} {sep : α}

/-- The pieces with a separator between two of them. -/
def joinWith (sep : α) (pieces : List (List α)) : List α := [sep].intercalate pieces

theorem joinWith_cons_cons (p q : List α) (pieces : List (List α)) :
    joinWith sep (p :: q :: pieces) = p ++ sep :: joinWith sep (q :: pieces) := by
  rw [joinWith, List.intercalate_cons_cons, List.append_assoc]
  rfl

theorem joinWith_concat {pieces : List (List α)} (h : pieces ≠ []) (p : List α) :
    joinWith sep (pieces ++ [p]) = joinWith sep pieces ++ sep :: p := by
  induction pieces with
  | nil => exact absurd rfl h
  | cons q pieces ih =>
      cases pieces with
      | nil =>
          rw [List.cons_append, List.nil_append, joinWith_cons_cons]
          simp [joinWith]
      | cons r pieces =>
          rw [List.cons_append, List.cons_append, joinWith_cons_cons, joinWith_cons_cons,
            ← List.cons_append, ih (List.cons_ne_nil _ _), List.append_assoc, List.cons_append]

/-- An element of the joined pieces is the separator, or is in a piece. -/
theorem mem_joinWith {pieces : List (List α)} {a : α} (h : a ∈ joinWith sep pieces) :
    a = sep ∨ ∃ p ∈ pieces, a ∈ p := by
  induction pieces with
  | nil => exact absurd h List.not_mem_nil
  | cons p pieces ih =>
      cases pieces with
      | nil => exact Or.inr ⟨p, List.mem_cons_self, by simpa [joinWith] using h⟩
      | cons q pieces =>
          rw [joinWith_cons_cons, List.mem_append, List.mem_cons] at h
          rcases h with hp | rfl | hrest
          · exact Or.inr ⟨p, List.mem_cons_self, hp⟩
          · exact Or.inl rfl
          · exact (ih hrest).imp_right fun ⟨r, hr, ha⟩ => ⟨r, List.mem_cons_of_mem _ hr, ha⟩

/-- The pieces, each with the mark after it. -/
def terminate (sep : α) (pieces : List (List α)) : List α := pieces.flatMap (· ++ [sep])

theorem terminate_cons (p : List α) (pieces : List (List α)) :
    terminate sep (p :: pieces) = p ++ sep :: terminate sep pieces := by
  rw [terminate, List.flatMap_cons, List.append_assoc]
  rfl

end Separated
