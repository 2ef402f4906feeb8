import LsmGraph.Library.Bfs
import Mathlib.Data.List.Nodup

/-! # All shortest paths from the parents of a breadth-first search

A search that records for every vertex the vertices of the level before from which it was met knows
all shortest paths: `ParentsUpTo` says what is recorded while a level is worked through, with one
rule for a vertex (`ParentsUpTo.visit`) and one for the next level. `pathsTo` follows the parents
back, and yields every shortest path once (`mem_pathsTo_iff`, `nodup_pathsTo`). -/

namespace Bfs

open KeyedSort

variable {V : Type*}

/-! ## Paths -/

/-- A path of the graph, as the sequence of its vertices. -/
structure IsPath (next : V → List V) (start goal : V) (path : List V) : Prop where
  head : path.head? = some start
  last : path.getLast? = some goal
  step : path.IsChain fun u v => v ∈ next u

/-- No path is shorter. -/
def IsShortestPath (next : V → List V) (start goal : V) (path : List V) : Prop :=
  IsPath next start goal path ∧ ∀ path', IsPath next start goal path' → path.length ≤ path'.length

variable {next : V → List V} {start : V}

theorem IsPath.ne_nil {goal : V} {path : List V} (h : IsPath next start goal path) : path ≠ [] := by
  rintro rfl
  exact Option.some_ne_none _ h.head.symm

/-- The path of one vertex. -/
theorem isPath_singleton_iff {goal v : V} : IsPath next start goal [v] ↔ v = start ∧ v = goal := by
  constructor
  · intro h
    exact ⟨Option.some.inj h.head, Option.some.inj h.last⟩
  · rintro ⟨rfl, rfl⟩
    exact ⟨rfl, rfl, List.isChain_singleton _⟩

/-- A path that is longer ends with a step. -/
theorem isPath_append_singleton_iff {goal v : V} {path : List V} (hne : path ≠ []) :
    IsPath next start goal (path ++ [v]) ↔
      v = goal ∧ ∃ u, IsPath next start u path ∧ v ∈ next u := by
  have hlast : path.getLast? = some (path.getLast hne) := List.getLast?_eq_some_getLast hne
  have hhead : (path ++ [v]).head? = path.head? := by
    rw [List.head?_append, Option.or_of_isSome]
    rw [List.isSome_head?]
    exact hne
  constructor
  · rintro ⟨hstart, hgoal, hstep⟩
    rw [List.getLast?_concat] at hgoal
    rw [List.isChain_append] at hstep
    refine ⟨Option.some.inj hgoal, path.getLast hne, ⟨hhead ▸ hstart, hlast, hstep.1⟩, ?_⟩
    exact hstep.2.2 _ hlast _ rfl
  · rintro ⟨rfl, u, hpath, hmem⟩
    refine ⟨hhead.trans hpath.head, List.getLast?_concat, ?_⟩
    refine List.isChain_append.mpr ⟨hpath.step, List.isChain_singleton _, ?_⟩
    intro x hx y hy
    rw [hpath.last] at hx
    cases hx
    cases hy
    exact hmem

/-- Paths are walks. -/
theorem IsPath.walk {path : List V} {goal : V} (h : IsPath next start goal path) :
    Walk next start (path.length - 1) goal := by
  -- from the end: a walk is prolonged by its last step
  induction path using List.reverseRecOn generalizing goal with
  | nil => exact absurd rfl h.ne_nil
  | append_singleton path v ih =>
      by_cases hne : path = []
      · subst hne
        obtain ⟨rfl, rfl⟩ := isPath_singleton_iff.mp h
        exact .refl
      · obtain ⟨rfl, u, hpath, hmem⟩ := (isPath_append_singleton_iff hne).mp h
        have hlen : (path ++ [v]).length - 1 = (path.length - 1) + 1 := by
          have hpos := List.length_pos_of_ne_nil hne
          rw [List.length_append, List.length_singleton]
          omega
        rw [hlen]
        exact (ih hpath).tail hmem

/-- Walks are paths. -/
theorem Walk.exists_path {n : Nat} {goal : V} (h : Walk next start n goal) :
    ∃ path, IsPath next start goal path ∧ path.length = n + 1 := by
  induction h with
  | refl => exact ⟨[start], isPath_singleton_iff.mpr ⟨rfl, rfl⟩, rfl⟩
  | @tail n u v _ hv ih =>
      obtain ⟨path, hpath, hlen⟩ := ih
      refine ⟨path ++ [v], (isPath_append_singleton_iff hpath.ne_nil).mpr ⟨rfl, u, hpath, hv⟩, ?_⟩
      rw [List.length_append, hlen, List.length_singleton]

/-- The shortest paths are those as long as the distance. -/
theorem Dist.isShortestPath_iff {n : Nat} {goal : V} (h : Dist next start n goal) {path : List V} :
    IsShortestPath next start goal path ↔ IsPath next start goal path ∧ path.length = n + 1 := by
  have hge : ∀ path', IsPath next start goal path' → n + 1 ≤ path'.length := by
    intro path' hpath'
    have hpos := List.length_pos_of_ne_nil hpath'.ne_nil
    have hle : ¬ path'.length - 1 < n := fun hlt => h.2 _ hlt hpath'.walk
    omega
  constructor
  · rintro ⟨hpath, hmin⟩
    obtain ⟨path', hpath', hlen⟩ := h.1.exists_path
    exact ⟨hpath, le_antisymm (hlen ▸ hmin path' hpath') (hge path hpath)⟩
  · rintro ⟨hpath, hlen⟩
    exact ⟨hpath, fun path' hpath' => hlen ▸ hge path' hpath'⟩

/-- The only shortest path to the start itself. -/
theorem isShortestPath_self_iff {path : List V} :
    IsShortestPath next start start path ↔ path = [start] := by
  rw [dist_zero.isShortestPath_iff]
  constructor
  · rintro ⟨hpath, hlen⟩
    obtain ⟨v, rfl⟩ := List.length_eq_one_iff.mp hlen
    rw [(isPath_singleton_iff.mp hpath).1]
  · rintro rfl
    exact ⟨isPath_singleton_iff.mpr ⟨rfl, rfl⟩, rfl⟩

/-! ## Parents -/

/-- **What is recorded while the vertices at distance `d` are worked through** and `rest` of them
are still to do: every vertex met has as parents the vertices at the distance before from which an
edge leads to it, each once. -/
structure ParentsUpTo (next : V → List V) (start : V) (d : Nat) (rest seen : List V)
    (parents : V → List V) : Prop where
  mem_iff : ∀ v ∈ seen, ∀ u, u ∈ parents v ↔
    ∃ k, Dist next start k u ∧ Dist next start (k + 1) v ∧ v ∈ next u ∧
      (k < d ∨ k = d ∧ u ∉ rest)
  nodup : ∀ v ∈ seen, (parents v).Nodup

theorem parentsUpTo_start {parents : V → List V} (h : parents start = []) :
    ParentsUpTo next start 0 [start] [start] parents where
  mem_iff v hv u := by
    rw [List.mem_singleton.mp hv, h]
    refine iff_of_false List.not_mem_nil ?_
    rintro ⟨k, -, hdist, -⟩
    exact absurd (hdist.unique dist_zero) (Nat.succ_ne_zero k)
  nodup v hv := by
    rw [List.mem_singleton.mp hv, h]
    exact List.nodup_nil

/-- **Level rule.** The next level begins. -/
theorem ParentsUpTo.nextLevel {d : Nat} {nxt seen : List V} {parents : V → List V}
    (h : ParentsUpTo next start d [] seen parents)
    (hnxt : ∀ v, Dist next start (d + 1) v → v ∈ nxt) :
    ParentsUpTo next start (d + 1) nxt seen parents where
  mem_iff v hv u := by
    rw [h.mem_iff v hv]
    refine exists_congr fun k => and_congr_right fun hu => and_congr_right fun _ =>
      and_congr_right fun _ => ?_
    constructor
    · rintro (hlt | ⟨rfl, -⟩)
      · exact Or.inl (hlt.trans (Nat.lt_succ_self d))
      · exact Or.inl (Nat.lt_succ_self k)
    · rintro (hlt | ⟨rfl, hnot⟩)
      · exact (Nat.lt_succ_iff_lt_or_eq.mp hlt).imp_right fun heq => ⟨heq, List.not_mem_nil⟩
      · exact absurd (hnxt u hu) hnot
  nodup := h.nodup

/-- Who is a parent once `u` is done: who was one before, and `u`. -/
theorem isParent_cons_iff {d : Nat} {u : V} {rest : List V} (hu : Dist next start d u)
    (hrest : u ∉ rest) (v w : V) :
    (∃ k, Dist next start k w ∧ Dist next start (k + 1) v ∧ v ∈ next w ∧
        (k < d ∨ k = d ∧ w ∉ rest)) ↔
      (∃ k, Dist next start k w ∧ Dist next start (k + 1) v ∧ v ∈ next w ∧
        (k < d ∨ k = d ∧ w ∉ u :: rest)) ∨ w = u ∧ Dist next start (d + 1) v ∧ v ∈ next u := by
  constructor
  · rintro ⟨k, hw, hv, hmem, hlt | ⟨rfl, hnot⟩⟩
    · exact Or.inl ⟨k, hw, hv, hmem, Or.inl hlt⟩
    · by_cases heq : w = u
      · subst heq
        exact Or.inr ⟨rfl, hv, hmem⟩
      · have hnot' : w ∉ u :: rest := fun hcons => (List.mem_cons.mp hcons).elim heq hnot
        exact Or.inl ⟨k, hw, hv, hmem, Or.inr ⟨rfl, hnot'⟩⟩
  · rintro (⟨k, hw, hv, hmem, hor⟩ | ⟨rfl, hv, hmem⟩)
    · refine ⟨k, hw, hv, hmem, hor.imp_right fun hand => ⟨hand.1, fun hin => ?_⟩⟩
      exact hand.2 (List.mem_cons_of_mem u hin)
    · exact ⟨d, hu, hv, hmem, Or.inr ⟨rfl, hrest⟩⟩

/-- **Step rule.** The vertex in hand becomes a parent of its successors that are one step further:
of those not seen before, and of those seen that `isNext` tells to be of the next level. -/
theorem ParentsUpTo.visit [DecidableEq V] {d : Nat} {u : V} {rest nxt seen : List V}
    {parents : V → List V} {isNext : V → Prop} [DecidablePred isNext]
    (h : ParentsUpTo next start d (u :: rest) seen parents)
    (hexploring : Exploring next start d (u :: rest) nxt seen)
    (hisNext : ∀ v ∈ seen, isNext v ↔ Dist next start (d + 1) v)
    {parents' : V → List V}
    (hold : ∀ v ∈ seen, parents' v = if v ∈ next u ∧ isNext v then parents v ++ [u] else parents v)
    (hnew : ∀ v ∈ next u, v ∉ seen → parents' v = [u]) :
    ParentsUpTo next start d rest (seen ++ firstByKey id seen (next u)) parents' := by
  have hu := hexploring.rest_dist u List.mem_cons_self
  have hrest := (List.nodup_cons.mp hexploring.rest_nodup).1
  have hdone := isParent_cons_iff hu hrest
  -- no vertex in `seen` has `u` as a parent yet
  have hfresh : ∀ v ∈ seen, u ∉ parents v := by
    intro v hv hin
    obtain ⟨k, hk, -, -, hlt | ⟨-, hnot⟩⟩ := (h.mem_iff v hv u).mp hin
    · exact absurd (hk.unique hu) hlt.ne
    · exact hnot List.mem_cons_self
  refine ⟨fun v hv w => ?_, fun v hv => ?_⟩
  · rw [hdone]
    rcases List.mem_append.mp hv with hv | hv
    · rw [← h.mem_iff v hv, hold v hv]
      by_cases hcond : v ∈ next u ∧ isNext v
      · rw [if_pos hcond, List.mem_append, List.mem_singleton]
        exact or_congr_right (iff_self_and.mpr fun _ => ⟨(hisNext v hv).mp hcond.2, hcond.1⟩)
      · rw [if_neg hcond]
        refine (or_iff_left ?_).symm
        rintro ⟨-, hdist, hmem⟩
        exact hcond ⟨hmem, (hisNext v hv).mpr hdist⟩
    · obtain ⟨hmem, hseen⟩ := mem_firstByKey_id.mp hv
      have hdist := hexploring.dist_of_notMem hmem hseen
      rw [hnew v hmem hseen, List.mem_singleton]
      constructor
      · exact fun heq => Or.inr ⟨heq, hdist, hmem⟩
      · rintro (⟨k, hw, hv', hin, hlt | ⟨rfl, hnot⟩⟩ | ⟨heq, -⟩)
        · exact absurd (hv'.unique hdist) (by omega)
        · exact absurd ((hexploring.mem_seen_iff v).mpr (Or.inr ⟨w, hw, hnot, hin⟩)) hseen
        · exact heq
  · rcases List.mem_append.mp hv with hv | hv
    · rw [hold v hv]
      split
      · refine List.nodup_append'.mpr ⟨h.nodup v hv, List.nodup_singleton u, ?_⟩
        exact List.disjoint_singleton.mpr (hfresh v hv)
      · exact h.nodup v hv
    · obtain ⟨hmem, hseen⟩ := mem_firstByKey_id.mp hv
      rw [hnew v hmem hseen]
      exact List.nodup_singleton u

/-! ## Following the parents back -/

/-- The paths that lead to a vertex in `depth` steps when the parents are followed back. -/
def pathsTo (parents : V → List V) : Nat → V → List (List V)
  | 0, v => [[v]]
  | depth + 1, v => (parents v).flatMap fun u => (pathsTo parents depth u).map (· ++ [v])

theorem length_of_mem_pathsTo {parents : V → List V} {depth : Nat} {v : V} {path : List V}
    (h : path ∈ pathsTo parents depth v) : path.length = depth + 1 := by
  induction depth generalizing v path with
  | zero => exact List.mem_singleton.mp h ▸ rfl
  | succ depth ih =>
      obtain ⟨u, -, h⟩ := List.mem_flatMap.mp h
      obtain ⟨path', h', rfl⟩ := List.mem_map.mp h
      rw [List.length_append, ih h', List.length_singleton]

theorem getLast?_of_mem_pathsTo {parents : V → List V} {depth : Nat} {v : V} {path : List V}
    (h : path ∈ pathsTo parents depth v) : path.getLast? = some v := by
  cases depth with
  | zero => exact List.mem_singleton.mp h ▸ rfl
  | succ depth =>
      obtain ⟨u, -, h⟩ := List.mem_flatMap.mp h
      obtain ⟨path', -, rfl⟩ := List.mem_map.mp h
      exact List.getLast?_concat

/-- Parents recorded below a level. -/
def ParentsBelow (next : V → List V) (start : V) (n : Nat) (parents : V → List V) : Prop :=
  ∀ k < n, ∀ v, Dist next start (k + 1) v →
    (parents v).Nodup ∧ ∀ u, u ∈ parents v ↔ Dist next start k u ∧ v ∈ next u

/-- When a level is done, the parents are known up to the next one. -/
theorem ParentsUpTo.parentsBelow {d : Nat} {nxt seen : List V} {parents : V → List V}
    (h : ParentsUpTo next start d [] seen parents) (hexploring : Exploring next start d [] nxt seen) :
    ParentsBelow next start (d + 1) parents := by
  intro k hk v hv
  have hseen : v ∈ seen := by
    rcases Nat.lt_succ_iff_lt_or_eq.mp hk with hlt | rfl
    · exact (hexploring.mem_seen_iff v).mpr (Or.inl (ball_iff_exists_dist.mpr ⟨k + 1, hlt, hv⟩))
    · obtain ⟨⟨u, hu, hmem⟩, -⟩ := dist_succ_iff.mp hv
      exact (hexploring.mem_seen_iff v).mpr (Or.inr ⟨u, hu, List.not_mem_nil, hmem⟩)
  refine ⟨h.nodup v hseen, fun u => ?_⟩
  rw [h.mem_iff v hseen]
  constructor
  · rintro ⟨j, hu, hv', hmem, -⟩
    have hj : j = k := Nat.succ_injective (hv'.unique hv)
    exact ⟨hj ▸ hu, hmem⟩
  · rintro ⟨hu, hmem⟩
    refine ⟨k, hu, hv, hmem, (Nat.lt_succ_iff_lt_or_eq.mp hk).imp_right fun heq => ⟨heq, ?_⟩⟩
    exact List.not_mem_nil

/-- **Following the parents back yields the shortest paths.** -/
theorem mem_pathsTo_iff {parents : V → List V} {n : Nat} (h : ParentsBelow next start n parents)
    {v : V} (hv : Dist next start n v) {path : List V} :
    path ∈ pathsTo parents n v ↔ IsShortestPath next start v path := by
  rw [hv.isShortestPath_iff]
  induction n generalizing v path with
  | zero =>
      rw [pathsTo, List.mem_singleton, hv.1.eq_start, ← dist_zero.isShortestPath_iff,
        isShortestPath_self_iff]
  | succ n ih =>
      obtain ⟨-, hparents⟩ := h n (Nat.lt_succ_self n) v hv
      have hbelow : ParentsBelow next start n parents := fun k hk =>
        h k (hk.trans (Nat.lt_succ_self n))
      rw [pathsTo, List.mem_flatMap]
      constructor
      · rintro ⟨u, hu, hpath⟩
        obtain ⟨hdist, hmem⟩ := (hparents u).mp hu
        obtain ⟨path', hpath', rfl⟩ := List.mem_map.mp hpath
        obtain ⟨hpath', hlen⟩ := (ih hbelow hdist).mp hpath'
        refine ⟨(isPath_append_singleton_iff hpath'.ne_nil).mpr ⟨rfl, u, hpath', hmem⟩, ?_⟩
        rw [List.length_append, hlen, List.length_singleton]
      · rintro ⟨hpath, hlen⟩
        -- a path of `n + 2` vertices has a last step
        obtain ⟨path', w, rfl⟩ : ∃ path' w, path = path' ++ [w] :=
          ⟨_, _, (List.dropLast_append_getLast hpath.ne_nil).symm⟩
        rw [List.length_append, List.length_singleton, Nat.add_right_cancel_iff] at hlen
        have hne : path' ≠ [] := List.ne_nil_of_length_pos (by omega)
        obtain ⟨rfl, u, hpath', hmem⟩ := (isPath_append_singleton_iff hne).mp hpath
        have hwalk : Walk next start n u := by
          have hwalk := hpath'.walk
          rwa [hlen, Nat.add_sub_cancel] at hwalk
        -- a shorter way to `u` would be a shorter way to the goal
        have hdist : Dist next start n u :=
          ⟨hwalk, fun k hk hshort => hv.2 (k + 1) (Nat.succ_lt_succ hk) (hshort.tail hmem)⟩
        refine ⟨u, (hparents u).mpr ⟨hdist, hmem⟩, List.mem_map.mpr ⟨path', ?_, rfl⟩⟩
        exact (ih hbelow hdist).mpr ⟨hpath', hlen⟩

/-- **Each of them once.** -/
theorem nodup_pathsTo {parents : V → List V} {n : Nat} (h : ParentsBelow next start n parents)
    {v : V} (hv : Dist next start n v) : (pathsTo parents n v).Nodup := by
  induction n generalizing v with
  | zero => exact List.nodup_singleton _
  | succ n ih =>
      obtain ⟨hnodup, hparents⟩ := h n (Nat.lt_succ_self n) v hv
      have hbelow : ParentsBelow next start n parents := fun k hk =>
        h k (hk.trans (Nat.lt_succ_self n))
      rw [pathsTo, List.nodup_flatMap]
      refine ⟨fun u hu => ?_, hnodup.imp fun hne => ?_⟩
      · exact (ih hbelow ((hparents u).mp hu).1).map (List.append_left_injective [v])
      · -- paths through different parents are different
        intro path hpath hpath'
        obtain ⟨path₁, hpath₁, rfl⟩ := List.mem_map.mp hpath
        obtain ⟨path₂, hpath₂, heq⟩ := List.mem_map.mp hpath'
        rw [List.append_left_injective [v] heq] at hpath₂
        have hlast := (getLast?_of_mem_pathsTo hpath₁).symm.trans (getLast?_of_mem_pathsTo hpath₂)
        exact hne (Option.some.inj hlast)

end Bfs
