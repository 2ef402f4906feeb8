import Mathlib.Data.List.Basic
import Mathlib.Order.Basic

/-! # Last uses in a log

A log is a list of uses, the latest at the end. `lastUse log a` is the position of the last use of
`a`, counted from one, and zero when there is none. A use moves its element behind all others
(`lastUse_concat`), and cutting off the front of a log shifts the elements used behind it
(`lastUse_append_of_mem`). `Recency.Oldest` is what a least-recently-used policy evicts. -/

namespace Recency

variable {α : Type*} [DecidableEq α]

/-- The position of the last use of `a`. -/
def lastUse : List α → α → Nat
  | [], _ => 0
  | b :: log, a => if a ∈ log then lastUse log a + 1 else if a = b then 1 else 0

theorem lastUse_cons (b : α) (log : List α) (a : α) : lastUse (b :: log) a =
    if a ∈ log then lastUse log a + 1 else if a = b then 1 else 0 := rfl

theorem lastUse_of_notMem {log : List α} {a : α} (h : a ∉ log) : lastUse log a = 0 := by
  cases log with
  | nil => rfl
  | cons b log =>
      rw [List.mem_cons, not_or] at h
      rw [lastUse_cons, if_neg h.2, if_neg h.1]

theorem lastUse_le_length (log : List α) (a : α) : lastUse log a ≤ log.length := by
  induction log with
  | nil => exact Nat.le_refl 0
  | cons b log ih =>
      rw [lastUse_cons, List.length_cons]
      split
      · exact Nat.succ_le_succ ih
      · split <;> omega

/-- Uses in the later part of a log hide those in the earlier part. -/
theorem lastUse_append (log later : List α) (a : α) :
    lastUse (log ++ later) a =
      if a ∈ later then log.length + lastUse later a else lastUse log a := by
  induction log with
  | nil =>
      rw [List.nil_append, List.length_nil, Nat.zero_add]
      split
      · rfl
      · rename_i h
        exact lastUse_of_notMem h
  | cons b log ih =>
      simp only [List.cons_append, lastUse_cons, ih, List.mem_append, List.length_cons]
      by_cases hlater : a ∈ later
      · simp only [hlater, or_true, if_true]
        omega
      · simp only [hlater, or_false, if_false]

/-- **A use** stands behind all earlier ones. -/
theorem lastUse_concat (log : List α) (b a : α) :
    lastUse (log ++ [b]) a = if a = b then log.length + 1 else lastUse log a := by
  rw [lastUse_append]
  by_cases h : a = b
  · rw [if_pos (List.mem_singleton.mpr h), if_pos h, lastUse_cons, if_neg List.not_mem_nil, if_pos h]
  · rw [if_neg fun hmem => h (List.mem_singleton.mp hmem), if_neg h]

/-- A use of another element leaves the last use where it is. -/
theorem lastUse_concat_of_ne {log : List α} {a b : α} (h : a ≠ b) :
    lastUse (log ++ [b]) a = lastUse log a := by
  rw [lastUse_concat, if_neg h]

/-- An element used behind the front of a log is shifted by the front's length. -/
theorem lastUse_append_of_mem {front log : List α} {a : α} (h : a ∈ log) :
    lastUse (front ++ log) a = front.length + lastUse log a := by
  rw [lastUse_append, if_pos h]

/-- Of the elements in `held`, `a` was used least recently. -/
def Oldest (log : List α) (held : α → Prop) (a : α) : Prop :=
  held a ∧ ∀ b, held b → lastUse log a ≤ lastUse log b

/-- Two logs put the last uses of the elements in `held` in one order. -/
def SameOrder (log log' : List α) (held : α → Prop) : Prop :=
  ∀ a b, held a → held b → (lastUse log a ≤ lastUse log b ↔ lastUse log' a ≤ lastUse log' b)

theorem SameOrder.oldest_iff {log log' : List α} {held : α → Prop} (h : SameOrder log log' held)
    (a : α) : Oldest log held a ↔ Oldest log' held a :=
  and_congr_right fun ha => forall_congr' fun b => imp_congr_right fun hb => h a b ha hb

theorem SameOrder.mono {log log' : List α} {held held' : α → Prop} (h : SameOrder log log' held)
    (hsub : ∀ a, held' a → held a) : SameOrder log log' held' :=
  fun a b ha hb => h a b (hsub a ha) (hsub b hb)

/-- A use in both logs keeps them in one order, also when it is the first use of its element. -/
theorem SameOrder.concat {log log' : List α} {held held' : α → Prop} (h : SameOrder log log' held)
    {c : α} (hsub : ∀ a, held' a → a = c ∨ held a) :
    SameOrder (log ++ [c]) (log' ++ [c]) held' := by
  intro a b ha hb
  have hle : ∀ d, lastUse log d ≤ log.length ∧ lastUse log' d ≤ log'.length :=
    fun d => ⟨lastUse_le_length log d, lastUse_le_length log' d⟩
  rw [lastUse_concat, lastUse_concat, lastUse_concat, lastUse_concat]
  by_cases hac : a = c
  · by_cases hbc : b = c
    · rw [hac, hbc]
      exact iff_of_true (Nat.le_refl _) (Nat.le_refl _)
    · have := hle b
      simp only [hac, hbc, if_true, if_false]
      omega
  · by_cases hbc : b = c
    · have := hle a
      simp only [hac, hbc, if_true, if_false]
      omega
    · simp only [hac, hbc, if_false]
      exact h a b ((hsub a ha).resolve_left hac) ((hsub b hb).resolve_left hbc)

/-- A use of an element that is not held does not matter. -/
theorem SameOrder.concat_left {log log' : List α} {held : α → Prop} (h : SameOrder log log' held)
    {c : α} (hc : ¬held c) : SameOrder (log ++ [c]) log' held := by
  intro a b ha hb
  have hac : a ≠ c := by
    rintro rfl
    exact hc ha
  have hbc : b ≠ c := by
    rintro rfl
    exact hc hb
  rw [lastUse_concat_of_ne hac, lastUse_concat_of_ne hbc]
  exact h a b ha hb

/-- Cutting off the front keeps the order of the elements that are still used behind it. -/
theorem SameOrder.drop_front {log front log' : List α} {held : α → Prop}
    (h : SameOrder log (front ++ log') held) (hmem : ∀ a, held a → a ∈ log') :
    SameOrder log log' held := by
  intro a b ha hb
  rw [h a b ha hb, lastUse_append_of_mem (hmem a ha), lastUse_append_of_mem (hmem b hb),
    Nat.add_le_add_iff_left]

end Recency
