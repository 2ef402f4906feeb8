import Mathlib.Data.Finite.Defs
import Mathlib.Data.Finset.Insert
import Mathlib.Data.Fintype.EquivFin
import Mathlib.Logic.Relation

/-! # Closing a set with a worklist

A queue of vertices to look at and the set of those already taken: a vertex taken before is skipped,
another one is taken and its successors are queued. The queue may hold a vertex many times and grows
while it is consumed, but a vertex is taken once, so over finitely many vertices the loop ends
(`closeLoop_spec`), with the vertices that can be reached from the queue. -/

namespace Worklist

variable {V : Type*} (next : V → List V)

/-- The loop, and `none` when the fuel is used up. -/
def closeLoop [DecidableEq V] : Nat → List V → Finset V → Option (Finset V)
  | 0, _, _ => none
  | _ + 1, [], out => some out
  | fuel + 1, v :: queue, out =>
      if v ∈ out then closeLoop fuel queue out
      else closeLoop fuel (queue ++ next v) (insert v out)

/-- **What holds while the loop runs**: all that was taken or is queued can be reached from `root`,
and the successors of what was taken were queued. -/
structure Closing (root : V) (queue : List V) (out : Finset V) : Prop where
  reachable : ∀ v, v ∈ out ∨ v ∈ queue → Relation.ReflTransGen (fun a b => b ∈ next a) root v
  root_mem : root ∈ out ∨ root ∈ queue
  next_mem : ∀ v ∈ out, ∀ w ∈ next v, w ∈ out ∨ w ∈ queue

variable {next} {root v : V} {queue : List V} {out : Finset V}

theorem closing_start (root : V) : Closing next root [root] ∅ where
  reachable v hv := by
    rw [List.mem_singleton.mp (hv.resolve_left (Finset.notMem_empty v))]
  root_mem := Or.inr List.mem_cons_self
  next_mem v hv := absurd hv (Finset.notMem_empty v)

/-- A vertex taken before is skipped. -/
theorem Closing.skip (h : Closing next root (v :: queue) out) (hv : v ∈ out) :
    Closing next root queue out := by
  have hdrop : ∀ w, w ∈ out ∨ w ∈ v :: queue → w ∈ out ∨ w ∈ queue := by
    rintro w (hw | hw)
    · exact Or.inl hw
    · rcases List.mem_cons.mp hw with rfl | hw
      · exact Or.inl hv
      · exact Or.inr hw
  exact
    { reachable := fun w hw => h.reachable w (hw.imp_right (List.mem_cons_of_mem v))
      root_mem := hdrop root h.root_mem
      next_mem := fun w hw u hu => hdrop u (h.next_mem w hw u hu) }

/-- Another one is taken. -/
theorem Closing.take [DecidableEq V] (h : Closing next root (v :: queue) out) :
    Closing next root (queue ++ next v) (insert v out) := by
  have hreach := h.reachable v (Or.inr List.mem_cons_self)
  have hmove : ∀ w, w ∈ out ∨ w ∈ v :: queue → w ∈ insert v out ∨ w ∈ queue ++ next v := by
    rintro w (hw | hw)
    · exact Or.inl (Finset.mem_insert_of_mem hw)
    · rcases List.mem_cons.mp hw with rfl | hw
      · exact Or.inl (Finset.mem_insert_self w out)
      · exact Or.inr (List.mem_append_left _ hw)
  refine
    { reachable := fun w hw => ?_
      root_mem := hmove root h.root_mem
      next_mem := fun w hw u hu => ?_ }
  · rcases hw with hw | hw
    · rcases Finset.mem_insert.mp hw with rfl | hw
      · exact hreach
      · exact h.reachable w (Or.inl hw)
    · rcases List.mem_append.mp hw with hw | hw
      · exact h.reachable w (Or.inr (List.mem_cons_of_mem v hw))
      · exact hreach.tail hw
  · rcases Finset.mem_insert.mp hw with rfl | hw
    · exact Or.inr (List.mem_append_right _ hu)
    · exact hmove u (h.next_mem w hw u hu)

/-- With an empty queue, what was taken is all that can be reached. -/
theorem Closing.mem_iff (h : Closing next root [] out) :
    v ∈ out ↔ Relation.ReflTransGen (fun a b => b ∈ next a) root v := by
  constructor
  · exact fun hv => h.reachable v (Or.inl hv)
  · intro hreach
    induction hreach with
    | refl => exact h.root_mem.resolve_right List.not_mem_nil
    | tail _ hstep ih => exact (h.next_mem _ ih _ hstep).resolve_right List.not_mem_nil

/-- **The loop ends**: a turn takes a new vertex, or shortens the queue. -/
theorem Closing.exists_fuel [DecidableEq V] [Finite V] (h : Closing next root queue out) :
    ∃ result, (∃ n, ∀ fuel, n < fuel → closeLoop next fuel queue out = some result) ∧
      ∀ v, v ∈ result ↔ Relation.ReflTransGen (fun a b => b ∈ next a) root v := by
  have := Fintype.ofFinite V
  -- by the number of vertices not taken yet, and for one number by the length of the queue
  induction hleft : (Finset.univ \ out).card using Nat.strong_induction_on
    generalizing queue out with
  | _ left ihLeft =>
      induction queue with
      | nil =>
          refine ⟨out, ⟨0, fun fuel hfuel => ?_⟩, fun v => h.mem_iff⟩
          obtain ⟨fuel, rfl⟩ := Nat.exists_eq_succ_of_ne_zero hfuel.ne'
          rfl
      | cons v queue ihQueue =>
          by_cases hv : v ∈ out
          · obtain ⟨result, ⟨n, hn⟩, hresult⟩ := ihQueue (h.skip hv)
            refine ⟨result, ⟨n + 1, fun fuel hfuel => ?_⟩, hresult⟩
            obtain ⟨fuel, rfl⟩ := Nat.exists_eq_succ_of_ne_zero (Nat.ne_zero_of_lt hfuel)
            rw [closeLoop, if_pos hv]
            exact hn fuel (Nat.lt_of_succ_lt_succ hfuel)
          · have hless : (Finset.univ \ insert v out).card < left := by
              rw [← hleft]
              refine Finset.card_lt_card ⟨?_, fun hsub => ?_⟩
              · exact Finset.sdiff_subset_sdiff subset_rfl (Finset.subset_insert v out)
              · have hmem := hsub (Finset.mem_sdiff.mpr ⟨Finset.mem_univ v, hv⟩)
                exact (Finset.mem_sdiff.mp hmem).2 (Finset.mem_insert_self v out)
            obtain ⟨result, ⟨n, hn⟩, hresult⟩ := ihLeft _ hless h.take rfl
            refine ⟨result, ⟨n + 1, fun fuel hfuel => ?_⟩, hresult⟩
            obtain ⟨fuel, rfl⟩ := Nat.exists_eq_succ_of_ne_zero (Nat.ne_zero_of_lt hfuel)
            rw [closeLoop, if_neg hv]
            exact hn fuel (Nat.lt_of_succ_lt_succ hfuel)

/-- **Closing is exact.** Over finitely many vertices the loop ends, for any graph, with the vertices
that can be reached from the root. -/
theorem closeLoop_spec [DecidableEq V] [Finite V] (next : V → List V) (root : V) :
    ∃ result, (∃ n, ∀ fuel, n < fuel → closeLoop next fuel [root] ∅ = some result) ∧
      ∀ v, v ∈ result ↔ Relation.ReflTransGen (fun a b => b ∈ next a) root v :=
  (closing_start root).exists_fuel

end Worklist
