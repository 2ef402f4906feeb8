import LsmGraph.Library.KeyedSort
import Mathlib.Algebra.GroupWithZero.Nat
import Mathlib.Data.List.Count
import Mathlib.Data.List.Find

/-! # Histograms

A histogram sorts values into cells by an ascending list of upper bounds: a value lies in the cell of
the first bound that is not below it (`cell`). `tally` counts the values in each cell. A quantile is
read off by adding up the counts until a rank is reached (`firstReaching`); what is found is the bound
of the cell in which the value of that rank lies (`firstReaching_tally`). -/

namespace Histogram

open KeyedSort

variable {α : Type*} [LinearOrder α]

/-- The cell of a value: the position of the first bound that is not below it. -/
def cell (bounds : List α) (a : α) : Option Nat := bounds.findIdx? fun bound => a ≤ bound

/-- The number of values in each cell. -/
def tally : List α → List α → List Nat
  | [], _ => []
  | bound :: bounds, l =>
      (l.countP fun a => a ≤ bound) :: tally bounds (l.filter fun a => ¬ a ≤ bound)

theorem tally_bound_cons (bound : α) (bounds l : List α) : tally (bound :: bounds) l =
    (l.countP fun a => a ≤ bound) :: tally bounds (l.filter fun a => ¬ a ≤ bound) := rfl

@[simp] theorem length_tally (bounds l : List α) : (tally bounds l).length = bounds.length := by
  induction bounds generalizing l with
  | nil => rfl
  | cons bound bounds ih => rw [tally_bound_cons, List.length_cons, ih, List.length_cons]

/-- Without values all counts are zero. -/
theorem tally_nil (bounds : List α) : tally bounds [] = List.replicate bounds.length 0 := by
  induction bounds with
  | nil => rfl
  | cons bound bounds ih =>
      rw [tally_bound_cons, List.filter_nil, ih, List.countP_nil, List.length_cons,
        List.replicate_succ]

/-- **One more value** counts in its cell. -/
theorem tally_cons (bounds : List α) (a : α) (l : List α) :
    tally bounds (a :: l) =
      match cell bounds a with
      | some i => (tally bounds l).modify i (· + 1)
      | none => tally bounds l := by
  induction bounds generalizing l with
  | nil => rfl
  | cons bound bounds ih =>
      rw [tally_bound_cons, tally_bound_cons, cell, List.findIdx?_cons]
      by_cases hle : a ≤ bound
      · rw [List.countP_cons_of_pos (by simpa using hle), List.filter_cons_of_neg (by simpa using hle)]
        simp [hle]
      · rw [List.countP_cons_of_neg (by simpa using hle), List.filter_cons_of_pos (by simpa using hle),
          ih]
        simp only [hle, decide_false, Bool.false_eq_true, if_false]
        rw [← cell]
        cases cell bounds a with
        | none => rfl
        | some i => rfl

/-- Counting does not depend on the order of the values. -/
theorem tally_perm {bounds l l' : List α} (h : l.Perm l') : tally bounds l = tally bounds l' := by
  induction bounds generalizing l l' with
  | nil => rfl
  | cons bound bounds ih => rw [tally_bound_cons, tally_bound_cons, h.countP_eq, ih (h.filter _)]

/-- No more values are counted than there are. -/
theorem sum_tally_le (bounds l : List α) : (tally bounds l).sum ≤ l.length := by
  induction bounds generalizing l with
  | nil => exact Nat.zero_le _
  | cons bound bounds ih =>
      have hrest := ih (l.filter fun a => ¬ a ≤ bound)
      have hsplit : l.length =
          (l.countP fun a => a ≤ bound) + (l.filter fun a => ¬ a ≤ bound).length := by
        rw [List.length_eq_countP_add_countP (fun a => decide (a ≤ bound)),
          ← List.countP_eq_length_filter]
        simp
      rw [tally_bound_cons, List.sum_cons]
      omega

/-- Add up counts, from `seen` on, until a rank is reached. -/
def firstReaching (rank : Nat) : Nat → List (α × Nat) → Option α
  | _, [] => none
  | seen, (bound, count) :: rest =>
      if rank ≤ seen + count then some bound else firstReaching rank (seen + count) rest

/-- The counts of the cells add up to the number of values that are not above a bound. -/
theorem firstReaching_eq_find? {bounds : List α} (hbounds : bounds.Pairwise (· ≤ ·)) (rank seen : Nat)
    (l : List α) :
    firstReaching rank seen (bounds.zip (tally bounds l)) =
      bounds.find? fun bound => rank ≤ seen + l.countP fun a => a ≤ bound := by
  induction bounds generalizing seen l with
  | nil => rfl
  | cons bound bounds ih =>
      obtain ⟨hbound, hbounds⟩ := List.pairwise_cons.mp hbounds
      rw [tally_bound_cons, List.zip_cons_cons, firstReaching, List.find?_cons]
      by_cases hreached : rank ≤ seen + l.countP fun a => a ≤ bound
      · rw [if_pos hreached, decide_eq_true hreached]
      · rw [if_neg hreached, decide_eq_false hreached, ih hbounds]
        refine List.find?_congr fun bound' hbound' => ?_
        -- what is not above the later bound is not above this one, or lies between the two
        have hcount : (l.countP fun a => a ≤ bound') = (l.countP fun a => a ≤ bound) +
            (l.filter fun a => ¬ a ≤ bound).countP fun a => a ≤ bound' := by
          rw [List.countP_filter, List.countP_eq_countP_filter_add l _ fun a => decide (a ≤ bound),
            List.countP_filter, List.countP_filter]
          congr 1
          · refine List.countP_congr fun a _ => ?_
            simpa using fun hle => hle.trans (hbound bound' hbound')
          · refine List.countP_congr fun a _ => ?_
            simp
        rw [hcount, Nat.add_assoc]

/-- The value of a rank is not above a bound iff that many values are not. -/
theorem ranked_le_iff {l : List α} {i : Nat} {v bound : α} (hv : (sortByKey id l)[i]? = some v) :
    v ≤ bound ↔ i + 1 ≤ l.countP fun a => a ≤ bound := by
  obtain ⟨hi, rfl⟩ := List.getElem?_eq_some_iff.mp hv
  have hsorted := pairwise_sortByKey id l
  rw [← (perm_sortByKey id l).countP_eq]
  generalize sortByKey id l = s at hi hsorted
  constructor
  · intro hle
    -- the first values are all not above the bound
    have hfirst : ∀ a ∈ s.take (i + 1), a ≤ bound := by
      intro a ha
      obtain ⟨j, hj, rfl⟩ := List.mem_iff_getElem.mp ha
      rw [List.length_take] at hj
      rw [List.getElem_take]
      rcases Nat.lt_or_ge j i with hlt | hge
      · exact (List.pairwise_iff_getElem.mp hsorted j i _ hi hlt).trans hle
      · have heq : j = i := by omega
        subst heq
        exact hle
    have hall : ((s.take (i + 1)).countP fun a => a ≤ bound) = (s.take (i + 1)).length :=
      List.countP_eq_length.mpr fun a ha => decide_eq_true (hfirst a ha)
    calc i + 1 = (s.take (i + 1)).length := by rw [List.length_take]; omega
      _ = (s.take (i + 1)).countP fun a => a ≤ bound := hall.symm
      _ ≤ s.countP fun a => a ≤ bound := (List.take_sublist _ _).countP_le
  · intro hcount
    by_contra hgt
    -- from position `i` on, all values are above the bound
    have hrest : ((s.drop i).countP fun a => a ≤ bound) = 0 := by
      refine List.countP_eq_zero.mpr fun a ha hle => hgt ?_
      obtain ⟨j, hj, rfl⟩ := List.mem_iff_getElem.mp ha
      rw [List.getElem_drop] at hle
      rcases Nat.eq_zero_or_pos j with rfl | hpos
      · simpa using hle
      · rw [List.length_drop] at hj
        have hij : i + j < s.length := by omega
        exact (List.pairwise_iff_getElem.mp hsorted i (i + j) hi hij (by omega)).trans
          (of_decide_eq_true hle)
    have hle := (s.take i).countP_le_length (p := fun a => decide (a ≤ bound))
    rw [← List.take_append_drop i s, List.countP_append, hrest] at hcount
    rw [List.length_take] at hle
    omega

/-- **A quantile.** Adding up the counts until a rank is reached ends at the bound of the cell of the
value of that rank. -/
theorem firstReaching_tally {bounds l : List α} (hbounds : bounds.Pairwise (· ≤ ·)) {i : Nat} {v : α}
    (hv : (sortByKey id l)[i]? = some v) :
    firstReaching (i + 1) 0 (bounds.zip (tally bounds l)) = bounds.find? fun bound => v ≤ bound := by
  rw [firstReaching_eq_find? hbounds]
  refine List.find?_congr fun bound _ => ?_
  rw [decide_eq_decide, ranked_le_iff hv, Nat.zero_add]

end Histogram
