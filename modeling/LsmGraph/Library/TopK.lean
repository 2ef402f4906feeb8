import LsmGraph.Library.KeyedSort
import Mathlib.Data.List.Count

/-! # Sorting, truncating and joining

A query that sorts its candidates, keeps the first `limit` and then joins each with data that may be
missing (`topRows`). `FillsLimit` is what one expects of it: the answer is the beginning of a sorted
sequence of the candidates that can be joined. It holds iff truncation and join commute on the
candidates at hand (`fillsLimit_iff`). -/

namespace KeyedSort

variable {α β κ : Type*} [LinearOrder κ]

/-- The rows of the first `limit` candidates, as far as they can be joined. -/
def topRows (key : α → κ) (join : α → Option β) (limit : Nat) (candidates : List α) : List β :=
  ((sortByKey key candidates).take limit).filterMap join

/-- The candidates that can be joined. -/
def complete (join : α → Option β) (candidates : List α) : List α :=
  candidates.filter fun c => (join c).isSome

/-- The rows are the first `limit` of a sorted sequence of all complete rows. -/
def FillsLimit (key : α → κ) (join : α → Option β) (limit : Nat) (candidates : List α)
    (rows : List β) : Prop :=
  ∃ s : List α, s.Perm (complete join candidates) ∧ (s.Pairwise fun a b => key a ≤ key b) ∧
    rows = (s.take limit).filterMap join

/-- No candidate that cannot be joined stands among the first `limit` while one that can stands
after them. -/
def NothingDisplaced (key : α → κ) (join : α → Option β) (limit : Nat) (candidates : List α) : Prop :=
  (∀ c ∈ (sortByKey key candidates).take limit, (join c).isSome) ∨
    ∀ c ∈ (sortByKey key candidates).drop limit, ¬ (join c).isSome

instance (key : α → κ) (join : α → Option β) (limit : Nat) (candidates : List α) :
    Decidable (NothingDisplaced key join limit candidates) := inferInstanceAs (Decidable (_ ∨ _))

variable {key : α → κ} {join : α → Option β} {limit : Nat} {candidates : List α} {rows : List β}

/-- Complete candidates are all joined. -/
theorem length_filterMap_of_complete {l : List α} (h : ∀ c ∈ l, (join c).isSome) :
    (l.filterMap join).length = l.length := by
  induction l with
  | nil => rfl
  | cons c l ih =>
      obtain ⟨row, hrow⟩ := Option.isSome_iff_exists.mp (h c List.mem_cons_self)
      rw [List.filterMap_cons_some hrow, List.length_cons, List.length_cons,
        ih fun c' hc' => h c' (List.mem_cons_of_mem c hc')]

theorem filterMap_complete (l : List α) : (complete join l).filterMap join = l.filterMap join := by
  induction l with
  | nil => rfl
  | cons c l ih =>
      cases hc : join c with
      | none =>
          rw [complete, List.filter_cons_of_neg (by simp [hc]), List.filterMap_cons_none hc]
          exact ih
      | some row =>
          rw [complete, List.filter_cons_of_pos (by simp [hc]), List.filterMap_cons_some hc,
            List.filterMap_cons_some hc]
          exact congrArg (row :: ·) ih

/-- As many rows as there can be. -/
theorem FillsLimit.length_eq (h : FillsLimit key join limit candidates rows) :
    rows.length = min limit (complete join candidates).length := by
  obtain ⟨s, hperm, -, rfl⟩ := h
  rw [length_filterMap_of_complete, List.length_take, hperm.length_eq]
  intro c hc
  exact (List.mem_filter.mp (hperm.mem_iff.mp (List.mem_of_mem_take hc))).2

/-- **Truncating before the join fills the limit iff nothing is displaced.** -/
theorem fillsLimit_iff :
    FillsLimit key join limit candidates (topRows key join limit candidates) ↔
      NothingDisplaced key join limit candidates := by
  have hperm := perm_sortByKey key candidates
  have hsorted := pairwise_sortByKey key candidates
  rw [topRows, NothingDisplaced]
  -- the complete candidates in their order, before and after the cut
  have hsplit : complete join (sortByKey key candidates) =
      complete join ((sortByKey key candidates).take limit) ++
        complete join ((sortByKey key candidates).drop limit) := by
    rw [complete, complete, complete, ← List.filter_append, List.take_append_drop]
  have hlengths : (complete join candidates).length =
      (complete join ((sortByKey key candidates).take limit)).length +
        (complete join ((sortByKey key candidates).drop limit)).length := by
    rw [← List.length_append, ← hsplit]
    exact ((hperm.filter _).length_eq).symm
  have hordered : ∀ rows, rows = ((complete join (sortByKey key candidates)).take limit).filterMap
      join → FillsLimit key join limit candidates rows := fun rows hrows =>
    ⟨_, hperm.filter _, hsorted.filter _, hrows⟩
  constructor
  · intro h
    have hlength := h.length_eq
    have hjoined : (((sortByKey key candidates).take limit).filterMap join).length =
        (complete join ((sortByKey key candidates).take limit)).length := by
      rw [← filterMap_complete]
      exact length_filterMap_of_complete fun c hc => (List.mem_filter.mp hc).2
    rw [hjoined, hlengths] at hlength
    by_cases hrest : (complete join ((sortByKey key candidates).drop limit)).length = 0
    · refine Or.inr fun c hc hcomplete => ?_
      rw [List.length_eq_zero_iff, complete, List.filter_eq_nil_iff] at hrest
      exact hrest c hc hcomplete
    · -- the first `limit` candidates are all joined
      refine Or.inl fun c hc => ?_
      have hle : ((sortByKey key candidates).take limit).length ≤ limit := List.length_take_le _ _
      have hfull : (complete join ((sortByKey key candidates).take limit)).length =
          ((sortByKey key candidates).take limit).length := by
        have hsub : (complete join ((sortByKey key candidates).take limit)).length ≤
            ((sortByKey key candidates).take limit).length := List.length_filter_le _ _
        omega
      exact List.length_filter_eq_length_iff.mp hfull c hc
  · rintro (hfirst | hlater)
    · refine hordered _ ?_
      have hall : complete join ((sortByKey key candidates).take limit) =
          (sortByKey key candidates).take limit := List.filter_eq_self.mpr hfirst
      rw [hsplit, hall]
      by_cases hshort : (sortByKey key candidates).length ≤ limit
      · rw [List.drop_eq_nil_of_le hshort, complete, List.filter_nil, List.append_nil, List.take_take,
          min_self]
      · rw [List.take_append_of_le_length (by rw [List.length_take]; omega), List.take_take, min_self]
    · refine hordered _ ?_
      have hnone : complete join ((sortByKey key candidates).drop limit) = [] :=
        List.filter_eq_nil_iff.mpr hlater
      have hle : (complete join ((sortByKey key candidates).take limit)).length ≤ limit :=
        (List.length_filter_le _ _).trans (List.length_take_le _ _)
      rw [hsplit, hnone, List.append_nil, List.take_of_length_le hle, filterMap_complete]

/-! ## The greatest element -/

/-- `Iterator::max_by`: the last one with the greatest key. -/
def lastMaxBy (key : α → κ) : List α → Option α
  | [] => none
  | a :: l => some (l.foldl (fun best b => if key b < key best then best else b) a)

theorem foldl_max_spec (key : α → κ) (a : α) (l : List α) :
    let best := l.foldl (fun best b => if key b < key best then best else b) a
    best ∈ a :: l ∧ ∀ b ∈ a :: l, key b ≤ key best := by
  induction l generalizing a with
  | nil => exact ⟨List.mem_singleton_self a, fun b hb => (congrArg key (List.mem_singleton.mp hb)).le⟩
  | cons c l ih =>
      rw [List.foldl_cons]
      split
      · rename_i hlt
        obtain ⟨hmem, hmax⟩ := ih a
        refine ⟨?_, fun b hb => ?_⟩
        · exact (List.mem_cons.mp hmem).elim (fun h => List.mem_cons.mpr (Or.inl h))
            fun h => List.mem_cons_of_mem _ (List.mem_cons_of_mem _ h)
        · rcases List.mem_cons.mp hb with rfl | hb
          · exact hmax _ List.mem_cons_self
          · rcases List.mem_cons.mp hb with rfl | hb
            · exact hlt.le.trans (hmax a List.mem_cons_self)
            · exact hmax b (List.mem_cons_of_mem _ hb)
      · rename_i hle
        obtain ⟨hmem, hmax⟩ := ih c
        refine ⟨List.mem_cons_of_mem _ hmem, fun b hb => ?_⟩
        rcases List.mem_cons.mp hb with rfl | hb
        · exact (not_lt.mp hle).trans (hmax c List.mem_cons_self)
        · exact hmax b hb

/-- What is found is greatest, and it is found unless there is nothing. -/
theorem lastMaxBy_spec (key : α → κ) (l : List α) :
    match lastMaxBy key l with
    | none => l = []
    | some a => a ∈ l ∧ ∀ b ∈ l, key b ≤ key a := by
  cases l with
  | nil => rfl
  | cons a l => exact foldl_max_spec key a l

end KeyedSort
