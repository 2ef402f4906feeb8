import Mathlib.Data.List.Basic
import Mathlib.Data.List.Infix

/-! # The first match of a pattern

Where a pattern first occurs in a list (`firstMatch`). A reader that looks for it in a growing buffer
finds it where it is in the whole input (`firstMatch_append`), and as soon as the buffer has all of it
(`length_lt_of_firstMatch`). -/

namespace FirstMatch

variable {α : Type*} [DecidableEq α]

/-- The first position at which the pattern begins. -/
def firstMatch (pattern : List α) : List α → Option Nat
  | [] => if pattern = [] then some 0 else none
  | x :: xs =>
      if (x :: xs).take pattern.length = pattern then some 0
      else (firstMatch pattern xs).map (· + 1)

/-- A match lies in the list. -/
theorem add_length_le {pattern xs : List α} {p : Nat} (h : firstMatch pattern xs = some p) :
    p + pattern.length ≤ xs.length := by
  induction xs generalizing p with
  | nil =>
      rw [firstMatch] at h
      split at h
      · rename_i hnil
        rw [hnil]
        exact (Option.some.inj h).ge
      · exact absurd h nofun
  | cons x xs ih =>
      rw [firstMatch] at h
      split at h
      · rename_i hmatch
        obtain rfl := Option.some.inj h
        have hlength := congrArg List.length hmatch
        rw [List.length_take] at hlength
        omega
      · obtain ⟨q, hq, rfl⟩ := Option.map_eq_some_iff.mp h
        have hle := ih hq
        rw [List.length_cons]
        omega

/-- **A match is found** in all longer lists. -/
theorem firstMatch_append {pattern xs : List α} {p : Nat} (hpattern : pattern ≠ [])
    (h : firstMatch pattern xs = some p) (ys : List α) : firstMatch pattern (xs ++ ys) = some p := by
  induction xs generalizing p with
  | nil =>
      rw [firstMatch, if_neg hpattern] at h
      exact absurd h nofun
  | cons x xs ih =>
      have hle := add_length_le h
      rw [firstMatch] at h
      rw [List.cons_append, firstMatch, ← List.cons_append, List.take_append_of_le_length (by omega)]
      by_cases hmatch : (x :: xs).take pattern.length = pattern
      · rw [if_pos hmatch] at h ⊢
        exact h
      · rw [if_neg hmatch] at h ⊢
        obtain ⟨q, hq, rfl⟩ := Option.map_eq_some_iff.mp h
        rw [ih hq, Option.map_some]

/-- **A match that is not found yet** reaches beyond the list. -/
theorem length_lt_of_firstMatch {pattern xs ys : List α} {p : Nat} (hpattern : pattern ≠ [])
    (hnone : firstMatch pattern xs = none) (h : firstMatch pattern (xs ++ ys) = some p) :
    xs.length < p + pattern.length := by
  have hpos := List.length_pos_iff.mpr hpattern
  induction xs generalizing p with
  | nil => exact hpos.trans_le (Nat.le_add_left _ _)
  | cons x xs ih =>
      rw [firstMatch] at hnone
      rw [List.cons_append, firstMatch, ← List.cons_append] at h
      by_cases hmatch : (x :: xs).take pattern.length = pattern
      · rw [if_pos hmatch] at hnone
        exact absurd hnone nofun
      · rw [if_neg hmatch] at hnone
        split at h
        · rename_i hlonger
          by_contra hle
          rw [List.take_append_of_le_length (by omega)] at hlonger
          exact hmatch hlonger
        · obtain ⟨q, hq, rfl⟩ := Option.map_eq_some_iff.mp h
          have hlt := ih (Option.map_eq_none_iff.mp hnone) hq
          rw [List.length_cons]
          omega

end FirstMatch
