import Mathlib.Data.List.Induction
import Mathlib.Data.List.Nodup

/-! # Columns filled row by row

A table whose rows carry their own numbers is turned into columns, by writing a value at the number
of each row that has one (`fill`), and into a list of pairs. If the numbers are the positions of the
rows, a column is the list of the values (`fill_replicate`); if the keys of the rows are distinct, the
pairs of values and keys are the inverse of the function from keys to values (`count_pairs`). -/

namespace Column

variable {ρ κ α : Type*}

/-- Row `i` has the number `i`. -/
def Numbered (number : ρ → Nat) (rows : List ρ) : Prop :=
  ∀ i (h : i < rows.length), number rows[i] = i

/-- Write the value of each row that has one at the number of the row. -/
def fill (number : ρ → Nat) (value : ρ → Option α) (column : List α) (rows : List ρ) : List α :=
  rows.foldl
    (fun column row =>
      match value row with
      | some a => column.set (number row) a
      | none => column) column

theorem fill_concat (number : ρ → Nat) (value : ρ → Option α) (column : List α) (rows : List ρ)
    (row : ρ) :
    fill number value column (rows ++ [row]) =
      match value row with
      | some a => (fill number value column rows).set (number row) a
      | none => fill number value column rows := by
  rw [fill, List.foldl_append, List.foldl_cons, List.foldl_nil, fill]

/-- **A column of numbered rows** is the list of their values, and the default where there is none. -/
theorem fill_replicate {number : ρ → Nat} {rows : List ρ} (h : Numbered number rows)
    (value : ρ → Option α) (d : α) (more : Nat) :
    fill number value (List.replicate (rows.length + more) d) rows =
      (rows.map fun row => (value row).getD d) ++ List.replicate more d := by
  induction rows using List.reverseRecOn generalizing more with
  | nil => rw [List.length_nil, Nat.zero_add, fill, List.foldl_nil, List.map_nil, List.nil_append]
  | append_singleton rows row ih =>
      have hrows : Numbered number rows := by
        intro i hi
        have hrow := h i (by rw [List.length_append]; omega)
        rwa [List.getElem_append_left hi] at hrow
      have hnumber : number row = rows.length := by
        have hrow := h rows.length (by rw [List.length_append, List.length_singleton]; omega)
        rwa [List.getElem_append_right (Nat.le_refl _), List.getElem_singleton] at hrow
      have hlength : (rows ++ [row]).length + more = rows.length + (more + 1) := by
        rw [List.length_append, List.length_singleton]
        omega
      rw [fill_concat, hlength, ih hrows, hnumber, List.map_append, List.append_assoc,
        List.replicate_succ]
      cases hvalue : value row with
      | none => simp [hvalue]
      | some a =>
          -- the value lands behind the values of the rows before
          simp only
          rw [List.set_append_right _ _ (Nat.le_of_eq (List.length_map _)),
            List.length_map, Nat.sub_self]
          simp [hvalue]

/-- **The inverse of a column.** A key is paired with its value, once, and with nothing else. -/
theorem count_pairs [DecidableEq α] [DecidableEq κ] {key : ρ → κ} {rows : List ρ}
    (hkeys : (rows.map key).Nodup) (value : ρ → α) (a : α) (k : κ) :
    (rows.map fun row => (value row, key row)).count (a, k) =
      if ∃ row ∈ rows, value row = a ∧ key row = k then 1 else 0 := by
  have hnodup : (rows.map fun row => (value row, key row)).Nodup := by
    refine List.Nodup.of_map Prod.snd ?_
    rwa [List.map_map]
  rw [hnodup.count]
  simp only [List.mem_map, Prod.mk.injEq]

end Column
