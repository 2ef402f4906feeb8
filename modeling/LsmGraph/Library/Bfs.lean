import LsmGraph.Library.KeyedSort

/-! # Breadth-first search

Distances in a directed graph that is given by the lists of successors, and what a breadth-first
search knows on its way: it works through the vertices of one distance (`rest` of them to go),
collecting the vertices of the next (`nxt`) and marking everything it meets (`seen`). `Exploring` is
the invariant; it holds at the start, after every vertex (`Exploring.visit`) and when the next level
begins (`Exploring.nextLevel`). Which list or queue holds the vertices is up to the search. -/

namespace Bfs

open KeyedSort

section Distance

variable {V : Type*} (next : V → List V) (start : V)

/-- `n` steps lead from `start` to the vertex. -/
inductive Walk : Nat → V → Prop
  | refl : Walk 0 start
  | tail {n : Nat} {u v : V} : Walk n u → v ∈ next u → Walk (n + 1) v

/-- The vertex is at most `n` steps away. -/
def Ball (n : Nat) (v : V) : Prop := ∃ k ≤ n, Walk next start k v

/-- A shortest walk to the vertex has `n` steps. -/
def Dist (n : Nat) (v : V) : Prop := Walk next start n v ∧ ∀ k < n, ¬ Walk next start k v

variable {next start}

theorem Walk.eq_start {v : V} (h : Walk next start 0 v) : v = start := by
  cases h
  rfl

theorem Dist.unique {m n : Nat} {v : V} (hm : Dist next start m v) (hn : Dist next start n v) :
    m = n := by
  rcases Nat.lt_trichotomy m n with hlt | heq | hlt
  · exact absurd hm.1 (hn.2 m hlt)
  · exact heq
  · exact absurd hn.1 (hm.2 n hlt)

/-- Whatever is reached has a distance. -/
theorem Walk.exists_dist {n : Nat} {v : V} (h : Walk next start n v) :
    ∃ k ≤ n, Dist next start k v := by
  induction n using Nat.strong_induction_on with
  | _ n ih =>
      by_cases hshorter : ∃ k < n, Walk next start k v
      · obtain ⟨k, hk, hwalk⟩ := hshorter
        obtain ⟨m, hm, hdist⟩ := ih k hk hwalk
        exact ⟨m, hm.trans hk.le, hdist⟩
      · exact ⟨n, le_refl n, h, fun k hk hwalk => hshorter ⟨k, hk, hwalk⟩⟩

theorem ball_iff_exists_dist {n : Nat} {v : V} :
    Ball next start n v ↔ ∃ k ≤ n, Dist next start k v := by
  constructor
  · rintro ⟨k, hk, hwalk⟩
    obtain ⟨m, hm, hdist⟩ := hwalk.exists_dist
    exact ⟨m, hm.trans hk, hdist⟩
  · rintro ⟨k, hk, hdist⟩
    exact ⟨k, hk, hdist.1⟩

theorem dist_zero : Dist next start 0 start := ⟨.refl, fun _ hk => absurd hk (Nat.not_lt_zero _)⟩

/-- One step further: a successor of a vertex at distance `n` that is not nearer. -/
theorem dist_succ_iff {n : Nat} {v : V} :
    Dist next start (n + 1) v ↔
      (∃ u, Dist next start n u ∧ v ∈ next u) ∧ ¬ Ball next start n v := by
  constructor
  · rintro ⟨hwalk, hmin⟩
    refine ⟨?_, fun ⟨k, hk, hk'⟩ => hmin k (Nat.lt_succ_of_le hk) hk'⟩
    cases hwalk with
    | tail hu hv =>
        refine ⟨_, ⟨hu, fun k hk hwalk => ?_⟩, hv⟩
        exact hmin (k + 1) (Nat.succ_lt_succ hk) (hwalk.tail hv)
  · rintro ⟨⟨u, hu, hv⟩, hball⟩
    exact ⟨hu.1.tail hv, fun k hk hwalk => hball ⟨k, Nat.le_of_lt_succ hk, hwalk⟩⟩

theorem ball_succ_iff {n : Nat} {v : V} :
    Ball next start (n + 1) v ↔
      Ball next start n v ∨ ∃ u, Dist next start n u ∧ v ∈ next u := by
  constructor
  · intro h
    by_cases hball : Ball next start n v
    · exact Or.inl hball
    · obtain ⟨k, hk, hdist⟩ := ball_iff_exists_dist.mp h
      have hk' : k = n + 1 := by
        by_contra hne
        exact hball (ball_iff_exists_dist.mpr ⟨k, by omega, hdist⟩)
      subst hk'
      exact Or.inr (dist_succ_iff.mp hdist).1
  · rintro (⟨k, hk, hwalk⟩ | ⟨u, hu, hv⟩)
    · exact ⟨k, hk.trans (Nat.le_succ n), hwalk⟩
    · exact ⟨n + 1, le_refl _, hu.1.tail hv⟩

/-- Nothing is at distance `n + 1` unless something is at distance `n`. -/
theorem Dist.exists_of_le {n : Nat} {v : V} (h : Dist next start n v) {k : Nat} (hk : k ≤ n) :
    ∃ u, Dist next start k u := by
  induction n generalizing v with
  | zero => exact ⟨v, Nat.le_zero.mp hk ▸ h⟩
  | succ n ih =>
      rcases Nat.lt_or_eq_of_le hk with hlt | rfl
      · obtain ⟨⟨u, hu, -⟩, -⟩ := dist_succ_iff.mp h
        exact ih hu (Nat.le_of_lt_succ hlt)
      · exact ⟨v, h⟩

end Distance

/-! ## The search -/

variable {V : Type*} {next : V → List V} {start : V}

/-- **What is known while the vertices at distance `d` are worked through**: `rest` are those still
to do, `nxt` the ones found at distance `d + 1`, `seen` everything met. -/
structure Exploring (next : V → List V) (start : V) (d : Nat) (rest nxt seen : List V) : Prop where
  rest_dist : ∀ v ∈ rest, Dist next start d v
  rest_nodup : rest.Nodup
  mem_seen_iff : ∀ v, v ∈ seen ↔
    Ball next start d v ∨ ∃ u, Dist next start d u ∧ u ∉ rest ∧ v ∈ next u
  mem_nxt_iff : ∀ v, v ∈ nxt ↔
    Dist next start (d + 1) v ∧ ∃ u, Dist next start d u ∧ u ∉ rest ∧ v ∈ next u
  nxt_nodup : nxt.Nodup
  seen_nodup : seen.Nodup

theorem exploring_start : Exploring next start 0 [start] [] [start] where
  rest_dist v hv := List.mem_singleton.mp hv ▸ dist_zero
  rest_nodup := List.nodup_singleton _
  mem_seen_iff v := by
    have hnone : ¬ ∃ u, Dist next start 0 u ∧ u ∉ [start] ∧ v ∈ next u := by
      rintro ⟨u, hu, hne, -⟩
      exact hne (List.mem_singleton.mpr hu.1.eq_start)
    rw [or_iff_left hnone, List.mem_singleton]
    constructor
    · rintro rfl
      exact ⟨0, le_refl 0, .refl⟩
    · rintro ⟨k, hk, hwalk⟩
      rw [Nat.le_zero.mp hk] at hwalk
      exact hwalk.eq_start
  mem_nxt_iff v := by
    refine iff_of_false List.not_mem_nil ?_
    rintro ⟨-, u, hu, hne, -⟩
    exact hne (List.mem_singleton.mpr hu.1.eq_start)
  nxt_nodup := List.nodup_nil
  seen_nodup := List.nodup_singleton _

namespace Exploring

variable {d : Nat} {u : V} {rest nxt seen : List V}

/-- A successor of the vertex in hand that was not seen is one step further. -/
theorem dist_of_notMem (h : Exploring next start d (u :: rest) nxt seen) {v : V} (hv : v ∈ next u)
    (hseen : v ∉ seen) : Dist next start (d + 1) v := by
  refine dist_succ_iff.mpr ⟨⟨u, h.rest_dist u List.mem_cons_self, hv⟩, fun hball => hseen ?_⟩
  exact (h.mem_seen_iff v).mpr (Or.inl hball)

/-- At the end of a level the collected vertices are the whole next one. -/
theorem mem_nxt_of_done (h : Exploring next start d [] nxt seen) {v : V} :
    v ∈ nxt ↔ Dist next start (d + 1) v := by
  rw [h.mem_nxt_iff]
  refine and_iff_left_of_imp fun hv => ?_
  obtain ⟨⟨u, hu, hmem⟩, -⟩ := dist_succ_iff.mp hv
  exact ⟨u, hu, List.not_mem_nil, hmem⟩

/-- **Level rule.** The next level begins. -/
theorem nextLevel (h : Exploring next start d [] nxt seen) :
    Exploring next start (d + 1) nxt [] seen where
  rest_dist v hv := h.mem_nxt_of_done.mp hv
  rest_nodup := h.nxt_nodup
  mem_seen_iff v := by
    have hnone : ¬ ∃ u, Dist next start (d + 1) u ∧ u ∉ nxt ∧ v ∈ next u := by
      rintro ⟨u, hu, hne, -⟩
      exact hne (h.mem_nxt_of_done.mpr hu)
    rw [or_iff_left hnone, ball_succ_iff, h.mem_seen_iff]
    simp
  mem_nxt_iff v := by
    refine iff_of_false List.not_mem_nil ?_
    rintro ⟨-, u, hu, hne, -⟩
    exact hne (h.mem_nxt_of_done.mpr hu)
  nxt_nodup := List.nodup_nil
  seen_nodup := h.seen_nodup

/-- **End rule.** Nothing left, nothing collected: everything within reach was seen. -/
theorem mem_seen_of_walk (h : Exploring next start d [] [] seen) {n : Nat} {v : V}
    (hwalk : Walk next start n v) : v ∈ seen := by
  obtain ⟨k, -, hdist⟩ := hwalk.exists_dist
  have hk : k ≤ d := by
    -- were it further away, the next level would not be empty
    by_contra hlt
    obtain ⟨w, hw⟩ := hdist.exists_of_le (k := d + 1) (by omega)
    exact List.not_mem_nil (h.mem_nxt_of_done.mpr hw)
  exact (h.mem_seen_iff v).mpr (Or.inl (ball_iff_exists_dist.mpr ⟨k, hk, hdist⟩))

end Exploring

/-! ## Marking -/

section Marking

variable [DecidableEq V]

/-- Mark a vertex; one that was not seen yet is collected. -/
def mark (s : List V × List V) (v : V) : List V × List V :=
  if v ∈ s.1 then s else (s.1 ++ [v], s.2 ++ [v])

/-- Marking a list of vertices collects those that are new, each once. -/
theorem foldl_mark (vs seen nxt : List V) :
    vs.foldl mark (seen, nxt) = (seen ++ firstByKey id seen vs, nxt ++ firstByKey id seen vs) := by
  induction vs generalizing seen nxt with
  | nil => simp [firstByKey]
  | cons v vs ih =>
      rw [List.foldl_cons, mark, firstByKey_cons]
      by_cases hv : v ∈ seen
      · rw [if_pos hv, if_pos (show id v ∈ seen from hv), ih]
      · have hseen : firstByKey id (seen ++ [v]) vs = firstByKey id (v :: seen) vs :=
          firstByKey_congr fun a _ => by simp [or_comm]
        rw [if_neg hv, if_neg (show id v ∉ seen from hv), ih, hseen, List.append_assoc,
          List.append_assoc]
        rfl

/-- **Step rule.** The new successors of one vertex are marked. -/
theorem Exploring.visit {d : Nat} {u : V} {rest nxt seen : List V}
    (h : Exploring next start d (u :: rest) nxt seen) :
    Exploring next start d rest (nxt ++ firstByKey id seen (next u))
      (seen ++ firstByKey id seen (next u)) := by
  obtain ⟨hu, hrest⟩ := List.nodup_cons.mp h.rest_nodup
  have hdist := h.rest_dist u List.mem_cons_self
  -- the vertices done are now those done before, and `u`
  have hdone : ∀ v, (∃ w, Dist next start d w ∧ w ∉ rest ∧ v ∈ next w) ↔
      (∃ w, Dist next start d w ∧ w ∉ u :: rest ∧ v ∈ next w) ∨ v ∈ next u := by
    intro v
    constructor
    · rintro ⟨w, hw, hmem, hv⟩
      by_cases heq : w = u
      · exact Or.inr (heq ▸ hv)
      · exact Or.inl ⟨w, hw, fun hcons => (List.mem_cons.mp hcons).elim heq hmem, hv⟩
    · rintro (⟨w, hw, hmem, hv⟩ | hv)
      · exact ⟨w, hw, fun hin => hmem (List.mem_cons_of_mem _ hin), hv⟩
      · exact ⟨u, hdist, hu, hv⟩
  refine
    { rest_dist := fun v hv => h.rest_dist v (List.mem_cons_of_mem _ hv)
      rest_nodup := hrest
      mem_seen_iff := fun v => ?_
      mem_nxt_iff := fun v => ?_
      nxt_nodup := ?_
      seen_nodup := ?_ }
  · -- a successor of `u` was seen before, or is marked now
    rw [hdone, List.mem_append, mem_firstByKey_id, h.mem_seen_iff v]
    constructor
    · rintro ((hball | hw) | ⟨hv, -⟩)
      · exact Or.inl hball
      · exact Or.inr (Or.inl hw)
      · exact Or.inr (Or.inr hv)
    · rintro (hball | hw | hv)
      · exact Or.inl (Or.inl hball)
      · exact Or.inl (Or.inr hw)
      · by_cases hseen : v ∈ seen
        · exact Or.inl ((h.mem_seen_iff v).mp hseen)
        · exact Or.inr ⟨hv, fun hor => hseen ((h.mem_seen_iff v).mpr hor)⟩
  · -- one that was seen before is collected only if it is of the next level
    rw [hdone, List.mem_append, mem_firstByKey_id, h.mem_nxt_iff]
    constructor
    · rintro (⟨hv, hw⟩ | ⟨hv, hseen⟩)
      · exact ⟨hv, Or.inl hw⟩
      · exact ⟨h.dist_of_notMem hv hseen, Or.inr hv⟩
    · rintro ⟨hv, hw | hmem⟩
      · exact Or.inl ⟨hv, hw⟩
      · by_cases hseen : v ∈ seen
        · have hball := (dist_succ_iff.mp hv).2
          exact Or.inl ⟨hv, ((h.mem_seen_iff v).mp hseen).resolve_left hball⟩
        · exact Or.inr ⟨hmem, hseen⟩
  · refine List.nodup_append'.mpr ⟨h.nxt_nodup, nodup_firstByKey_id _ _, fun v hv hfresh => ?_⟩
    exact (mem_firstByKey_id.mp hfresh).2 ((h.mem_seen_iff v).mpr (Or.inr ((h.mem_nxt_iff v).mp hv).2))
  · refine List.nodup_append'.mpr ⟨h.seen_nodup, nodup_firstByKey_id _ _, fun v hv hfresh => ?_⟩
    exact (mem_firstByKey_id.mp hfresh).2 hv

/-- The vertices of a level one after another. -/
theorem Exploring.visitAll {d : Nat} {rest nxt seen : List V}
    (h : Exploring next start d rest nxt seen) :
    Exploring next start d [] (rest.foldl (fun s u => (next u).foldl mark s) (seen, nxt)).2
      (rest.foldl (fun s u => (next u).foldl mark s) (seen, nxt)).1 := by
  induction rest generalizing nxt seen with
  | nil => exact h
  | cons u rest ih =>
      rw [List.foldl_cons, foldl_mark]
      exact ih h.visit

end Marking

end Bfs
