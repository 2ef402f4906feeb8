import LsmGraph.Snb.ReplyWeight
import Mathlib.Data.Prod.Lex
import Mathlib.Algebra.BigOperators.Group.List.Basic

/-! # IC14: all shortest paths with their weights

`all_shortest_paths` follows the parents of the search back from the goal, and weighs every path it
completes with the tables of the cache. `ic14_topk_order` pushes the paths into a heap and sorts the
heap. `ic14_exact_iff` says when every shortest path is returned once: the depth of the goal, by which
the parents are followed back, is a `u32`. -/

namespace LsmGraph

open Bfs KeyedSort Memo

namespace OpenGraph

variable (g : OpenGraph)

/-- The sum over the pairs of neighbours on a path. -/
def weighPath (path : List VertexId) : StateM Ic14Cache ℚ :=
  (path.zip path.tail).foldlM (fun weight pair => do
    pure (weight + (← g.knowsWeight pair.1 pair.2))) 0

/-- `enumerate_paths` from the vertex with number `cur`. -/
def enumeratePaths (vids : List VertexId) (parents : List (List Nat)) :
    Nat → Nat → List VertexId → List (List VertexId × ℚ) →
      StateM Ic14Cache (List (List VertexId × ℚ))
  | 0, cur, currentRev, out => do
      let path := (currentRev ++ [vids.getD cur 0]).reverse
      let weight ← g.weighPath path
      pure (out ++ [(path, weight)])
  | depth + 1, cur, currentRev, out =>
      (parents.getD cur []).foldlM (fun out parent =>
        enumeratePaths vids parents depth parent (currentRev ++ [vids.getD cur 0]) out) out

/-- `all_shortest_paths`, and `none` when the fuel is used up. -/
def allShortestPaths (fuel : Nat) (start goal : VertexId) :
    StateM Ic14Cache (Option (List (List VertexId × ℚ))) :=
  if start = goal then pure (some [([start], 0)])
  else
    match g.shortestPathParentDag fuel start goal with
    | none => pure none
    | some none => pure (some [])
    | some (some dag) =>
        some <$> g.enumeratePaths dag.vids dag.parents dag.goalDepth.toNat dag.goalIdx [] []

end OpenGraph

/-- An entry of the heap. -/
structure PathItem where
  path : List VertexId
  weight : ℚ
  start : VertexId

/-- The order of `cmp`: the heaviest path first. -/
def PathItem.key (item : PathItem) : ℚᵒᵈ ×ₗ VertexId :=
  toLex (OrderDual.toDual item.weight, item.start)

/-- The inner loop of `ic14_topk_order`: an entry moves up while it is `Greater` than its parent. -/
def siftUp (heap : Array PathItem) (i : Nat) (hi : i < heap.size) : Array PathItem :=
  if hpos : 0 < i then
    have hparent : (i - 1) / 2 < heap.size := by omega
    if heap[(i - 1) / 2].key < heap[i].key then
      siftUp (heap.swap i ((i - 1) / 2) hi hparent) ((i - 1) / 2) (by rwa [Array.size_swap])
    else heap
  else heap
termination_by i
decreasing_by omega

def pushPath (heap : Array PathItem) (path : List VertexId × ℚ) : Array PathItem :=
  siftUp (heap.push ⟨path.1, path.2, path.1.head?.getD 0⟩) heap.size (by simp)

def ic14TopkOrder (paths : List (List VertexId × ℚ)) : List (List VertexId × ℚ) :=
  (sortByKey PathItem.key (paths.foldl pushPath #[]).toList).map fun item =>
    (item.path, item.weight)

structure Ic14Row where
  personIdsInPath : List Int64
  pathWeight : ℚ
  deriving DecidableEq

namespace OpenGraph

variable (g : OpenGraph)

def personPathIds (path : List VertexId) : List Int64 :=
  path.filterMap fun vid => (g.person vid).map PersonProps.id

/-- `ic14`, and `none` when the fuel is used up. -/
def ic14 (fuel : Nat) (person1Id person2Id : Int64) : Option (List Ic14Row) :=
  let start := encodeVid .person person1Id
  let goal := encodeVid .person person2Id
  if g.person start = none ∨ g.person goal = none then some []
  else
    ((g.allShortestPaths fuel start goal).run .new).1.map fun paths =>
      (ic14TopkOrder paths).map fun path => ⟨g.personPathIds path.1, path.2⟩

end OpenGraph

/-! ## The order of the answer -/

/-- Moving up permutes the heap. -/
theorem perm_siftUp (heap : Array PathItem) (i : Nat) (hi : i < heap.size) :
    (siftUp heap i hi).toList.Perm heap.toList := by
  fun_induction siftUp heap i hi with
  | case1 heap i hi hpos hparent hlt ih => exact ih.trans (Array.swap_perm hi hparent).toList
  | case2 => exact .refl _
  | case3 => exact .refl _

theorem perm_foldl_pushPath (paths : List (List VertexId × ℚ)) (heap : Array PathItem) :
    ((paths.foldl pushPath heap).toList.map fun item => (item.path, item.weight)).Perm
      ((heap.toList.map fun item => (item.path, item.weight)) ++ paths) := by
  induction paths generalizing heap with
  | nil => rw [List.append_nil]; exact .refl _
  | cons path paths ih =>
      -- the new entry stands at the end before it moves up
      have hpush := (perm_siftUp (heap.push ⟨path.1, path.2, path.1.head?.getD 0⟩) heap.size
        (by simp)).map fun item => (item.path, item.weight)
      rw [Array.toList_push, List.map_append, List.map_singleton] at hpush
      refine (ih (pushPath heap path)).trans ((hpush.append_right paths).trans ?_)
      rw [List.append_assoc]
      exact .refl _

/-- **The order is a permutation** of the paths. -/
theorem perm_ic14TopkOrder (paths : List (List VertexId × ℚ)) : (ic14TopkOrder paths).Perm paths :=
  ((perm_sortByKey PathItem.key _).map _).trans (perm_foldl_pushPath paths #[])

/-- **No path is heavier than one before it.** -/
theorem pairwise_ic14TopkOrder (paths : List (List VertexId × ℚ)) :
    (ic14TopkOrder paths).Pairwise fun path path' => path'.2 ≤ path.2 := by
  refine List.pairwise_map.mpr ((pairwise_sortByKey PathItem.key _).imp fun hle => ?_)
  exact OrderDual.toDual_le_toDual.mp (Prod.Lex.monotone_fst _ _ hle)

/-! ## The paths -/

namespace OpenGraph

variable {g : OpenGraph} {start goal : VertexId}

/-- The weight of a path: the replies between neighbours on it. -/
noncomputable def pathWeight (g : OpenGraph) (path : List VertexId) : ℚ :=
  ((path.zip path.tail).map fun pair => g.friendWeight pair.1 pair.2).sum

theorem weighPath_computes (hnodup : g.NodupAdjacency) (path : List VertexId) :
    Computes g.CacheCorrect (g.weighPath path) (g.pathWeight path) := by
  have hloop : Computes g.CacheCorrect (g.weighPath path)
      ((path.zip path.tail).foldl (fun weight pair => weight + g.friendWeight pair.1 pair.2) 0) :=
    Computes.foldlM (fun weight pair _ =>
      (knowsWeight_computes hnodup pair.1 pair.2).bind
        (Computes.pure (weight + g.friendWeight pair.1 pair.2))) 0
  rwa [← List.foldl_map, ← List.sum_eq_foldl] at hloop

/-- **Step by step, the enumeration follows the parents back.** -/
theorem enumeratePaths_computes (hnodup : g.NodupAdjacency) {s : DagSearch} (hwf : s.Wf goal)
    (depth : Nat) {cur : Nat} (hcur : cur < s.vids.length) (currentRev : List VertexId)
    (out : List (List VertexId × ℚ)) :
    Computes g.CacheCorrect (g.enumeratePaths s.vids s.parents depth cur currentRev out)
      (out ++ (pathsTo s.parentsOf depth (s.vid cur)).map fun path =>
        (path ++ currentRev.reverse, g.pathWeight (path ++ currentRev.reverse))) := by
  have hrev : (currentRev ++ [s.vids.getD cur 0]).reverse = [s.vid cur] ++ currentRev.reverse := by
    rw [List.reverse_append]
    rfl
  -- on the depth: `currentRev` grows by the vertex in hand, which the paths end with
  induction depth generalizing cur currentRev out with
  | zero =>
      rw [enumeratePaths, hrev, pathsTo, List.map_singleton]
      exact (weighPath_computes hnodup _).bind (Computes.pure _)
  | succ depth ih =>
      have hparents : s.parentsOf (s.vid cur) = (s.parents.getD cur []).map s.vid := by
        rw [DagSearch.parentsOf, hwf.index_vid hcur]
      have hloop := Computes.foldlM (I := g.CacheCorrect) (l := s.parents.getD cur [])
        (fun out parent hparent => ih (hwf.parents_lt cur parent hparent)
          (currentRev ++ [s.vids.getD cur 0]) out (by rw [List.reverse_append]; rfl)) out
      have hflat : ∀ (ps : List Nat) (out : List (List VertexId × ℚ)),
          ps.foldl (fun out parent => out ++ (pathsTo s.parentsOf depth (s.vid parent)).map
            fun path => (path ++ (currentRev ++ [s.vids.getD cur 0]).reverse,
              g.pathWeight (path ++ (currentRev ++ [s.vids.getD cur 0]).reverse))) out =
          out ++ ((ps.map s.vid).flatMap fun u =>
            (pathsTo s.parentsOf depth u).map (· ++ [s.vid cur])).map fun path =>
              (path ++ currentRev.reverse, g.pathWeight (path ++ currentRev.reverse)) := by
        intro ps
        induction ps with
        | nil => intro out; simp
        | cons p ps ih =>
            intro out
            rw [List.foldl_cons, ih, hrev, List.map_cons, List.flatMap_cons, List.map_append,
              List.map_map, List.append_assoc]
            simp only [Function.comp_def, List.append_assoc]
      rw [hflat] at hloop
      rw [enumeratePaths, pathsTo, hparents]
      exact hloop

/-- **What `all_shortest_paths` returns**, whatever the tables hold already. -/
theorem allShortestPaths_computes (hnodup : g.NodupAdjacency) (hne : start ≠ goal) {fuel : Nat}
    (hfuel : 2 ^ 64 < fuel) :
    ∃ s, SearchDone g start goal s ∧
      Computes g.CacheCorrect (g.allShortestPaths fuel start goal)
        (some (if goal ∈ s.vids then
          (pathsTo s.parentsOf (s.depthOf goal).toNat goal).map fun path =>
            (path, g.pathWeight path)
        else [])) := by
  obtain ⟨s, hdone, hsearch⟩ := shortestPathParentDag_spec hnodup hne hfuel
  refine ⟨s, hdone, ?_⟩
  rw [allShortestPaths, if_neg hne, hsearch]
  by_cases hmet : goal ∈ s.vids
  · obtain ⟨i, hindex, hi, hvid⟩ := hdone.wf.exists_index hmet
    have hdepth : s.depthOf goal = s.depths.getD i 0 := by rw [DagSearch.depthOf, hindex]
    have hpaths := enumeratePaths_computes hnodup hdone.wf (s.depths.getD i 0).toNat hi [] []
    simp only [hvid, List.reverse_nil, List.append_nil, List.nil_append] at hpaths
    rw [hindex, if_pos hmet, hdepth]
    exact hpaths.map some
  · rw [hdone.wf.index_eq_none.mpr hmet, if_neg hmet]
    exact Computes.pure _

/-- Every shortest path is there once, with its weight. -/
structure AllShortest (g : OpenGraph) (start goal : VertexId)
    (paths : List (List VertexId × ℚ)) : Prop where
  mem_iff : ∀ path, path ∈ paths.map Prod.fst ↔ IsShortestPath g.knowsNeighbors start goal path
  nodup : (paths.map Prod.fst).Nodup
  weight_eq : ∀ path ∈ paths, path.2 = g.pathWeight path.1

/-- All shortest paths are found where the distance fits a `u32`. -/
theorem exists_allShortest (hnodup : g.NodupAdjacency)
    (hshort : ∀ n, Dist g.knowsNeighbors start n goal → n < 2 ^ 32) {fuel : Nat}
    (hfuel : 2 ^ 64 < fuel) :
    ∃ paths, Computes g.CacheCorrect (g.allShortestPaths fuel start goal) (some paths) ∧
      AllShortest g start goal paths := by
  by_cases hne : start = goal
  · subst hne
    refine ⟨[([start], 0)], ?_, fun path => ?_, List.nodup_singleton _, fun path hpath => ?_⟩
    · rw [allShortestPaths, if_pos rfl]
      exact Computes.pure _
    · rw [isShortestPath_self_iff, List.map_singleton, List.mem_singleton]
    · rw [List.mem_singleton.mp hpath]
      rfl
  · obtain ⟨s, hdone, hcomputes⟩ := allShortestPaths_computes hnodup hne hfuel
    refine ⟨_, hcomputes, ?_⟩
    by_cases hmet : goal ∈ s.vids
    · obtain ⟨n, hdist, hdepth, hparents⟩ := hdone.reached hmet
      -- the depth of the goal has not wrapped
      have hn := hshort n hdist
      have hfst : ((pathsTo s.parentsOf n goal).map fun path => (path, g.pathWeight path)).map
          Prod.fst = pathsTo s.parentsOf n goal := by
        rw [List.map_map]
        exact List.map_id _
      rw [if_pos hmet, hdepth, UInt32.toNat_ofNat_of_lt' hn]
      refine ⟨fun path => ?_, ?_, fun path hpath => ?_⟩
      · rw [hfst, mem_pathsTo_iff (hparents hn) hdist]
      · rw [hfst]
        exact nodup_pathsTo (hparents hn) hdist
      · obtain ⟨path, -, rfl⟩ := List.mem_map.mp hpath
        rfl
    · rw [if_neg hmet]
      refine ⟨fun path => ?_, List.nodup_nil, fun path hpath => absurd hpath List.not_mem_nil⟩
      exact iff_of_false List.not_mem_nil fun hpath => hdone.unreachable hmet _ hpath.1.walk

/-- No path that is returned has more than `2 ^ 32` vertices. -/
theorem dist_lt_of_allShortest (hnodup : g.NodupAdjacency) {fuel : Nat} (hfuel : 2 ^ 64 < fuel)
    {paths : List (List VertexId × ℚ)}
    (hcomputes : Computes g.CacheCorrect (g.allShortestPaths fuel start goal) (some paths))
    (hall : AllShortest g start goal paths) {n : Nat}
    (hdist : Dist g.knowsNeighbors start n goal) : n < 2 ^ 32 := by
  by_cases hne : start = goal
  · subst hne
    rw [hdist.unique dist_zero]
    decide
  · obtain ⟨s, -, hcomputes'⟩ := allShortestPaths_computes hnodup hne hfuel
    have hpaths := Option.some.inj ((hcomputes _ g.cacheCorrect_new).1.symm.trans
      (hcomputes' _ g.cacheCorrect_new).1)
    -- a shortest path has `n + 1` vertices, and a path that is returned as many as a `u32` says
    obtain ⟨path, hpath, hlength⟩ := hdist.1.exists_path
    have hmem := (hall.mem_iff path).mpr (hdist.isShortestPath_iff.mpr ⟨hpath, hlength⟩)
    rw [hpaths] at hmem
    split at hmem
    · rw [List.map_map] at hmem
      obtain ⟨path', hpath', rfl⟩ := List.mem_map.mp hmem
      have hlength' : path'.length = (s.depthOf goal).toNat + 1 := length_of_mem_pathsTo hpath'
      have hlt := (s.depthOf goal).toNat_lt
      change path'.length = n + 1 at hlength
      omega
    · exact absurd hmem List.not_mem_nil

/-- **IC14 is right**: `all_shortest_paths` finds all shortest paths, with right tables of any
contents, and the rows are these paths in the order of `ic14_topk_order`. -/
def Ic14Right (g : OpenGraph) (person1Id person2Id : Int64) : Prop :=
  ∀ fuel, 2 ^ 64 < fuel → ∃ paths,
    Computes g.CacheCorrect (g.allShortestPaths fuel (encodeVid .person person1Id)
      (encodeVid .person person2Id)) (some paths) ∧
    AllShortest g (encodeVid .person person1Id) (encodeVid .person person2Id) paths ∧
    g.ic14 fuel person1Id person2Id =
      some ((ic14TopkOrder paths).map fun path => ⟨g.personPathIds path.1, path.2⟩)

/-- The heaviest paths come first. -/
def TopkOrders : Prop :=
  ∀ paths, (ic14TopkOrder paths).Perm paths ∧
    (ic14TopkOrder paths).Pairwise fun path path' => path'.2 ≤ path.2

theorem dist_lt_of_ic14Right (hnodup : g.NodupAdjacency) {person1Id person2Id : Int64}
    (h : g.Ic14Right person1Id person2Id) {n : Nat}
    (hdist : Dist g.knowsNeighbors (encodeVid .person person1Id) n (encodeVid .person person2Id)) :
    n < 2 ^ 32 := by
  obtain ⟨paths, hcomputes, hall, -⟩ := h (2 ^ 64 + 1) (Nat.lt_succ_self _)
  exact dist_lt_of_allShortest hnodup (Nat.lt_succ_self _) hcomputes hall hdist

/-- **IC14 is right iff the distance fits a `u32`.** -/
theorem ic14_exact_iff (hnodup : g.NodupAdjacency) {person1Id person2Id : Int64}
    (h₁ : g.HasPerson person1Id) (h₂ : g.HasPerson person2Id) :
    g.Ic14Right person1Id person2Id ∧ TopkOrders ↔
      ∀ n, Dist g.knowsNeighbors (encodeVid .person person1Id) n (encodeVid .person person2Id) →
        n < 2 ^ 32 := by
  constructor
  · rintro ⟨hright, -⟩ n hdist
    exact dist_lt_of_ic14Right hnodup hright hdist
  · intro hshort
    refine ⟨fun fuel hfuel => ?_, fun paths =>
      ⟨perm_ic14TopkOrder paths, pairwise_ic14TopkOrder paths⟩⟩
    obtain ⟨paths, hcomputes, hall⟩ := exists_allShortest hnodup hshort hfuel
    refine ⟨paths, hcomputes, hall, ?_⟩
    have hstored := not_or.mpr ⟨h₁.person_ne_none, h₂.person_ne_none⟩
    rw [ic14, if_neg hstored, (hcomputes _ g.cacheCorrect_new).1]
    rfl

end OpenGraph

theorem nodupAdjacency_chain (len : UInt64) : (chain len).NodupAdjacency := by
  intro key
  rw [chain]
  dsimp only
  split
  · exact List.nodup_singleton _
  · exact List.nodup_nil

namespace OpenGraph

theorem ic14_exact_iff_chain :
    (chain 2).Ic14Right 0 2 ∧ TopkOrders ↔
      ∀ n, Dist (chain 2).knowsNeighbors (encodeVid .person 0) n (encodeVid .person 2) →
        n < 2 ^ 32 :=
  ic14_exact_iff (nodupAdjacency_chain 2) ⟨chainPerson 0, by decide, rfl⟩
    ⟨chainPerson 2, by decide, rfl⟩

/-- **The depth overflows**: between the ends of a chain of `2 ^ 32 + 1` persons there is one
shortest path, and it is not returned. -/
theorem ic14_overflows :
    ¬ ∀ g : OpenGraph, ∀ person1Id person2Id, g.NodupAdjacency → g.HasPerson person1Id →
      g.HasPerson person2Id → g.Ic14Right person1Id person2Id ∧ TopkOrders := by
  intro h
  have hdist : Dist _ chainFirst ((2 ^ 32 : UInt64)).toNat (chainFirst + 2 ^ 32) :=
    dist_chain (by decide)
  have hright := h (chain (2 ^ 32)) 0 (2 ^ 32) (nodupAdjacency_chain _)
    ⟨chainPerson 0, by decide +kernel, rfl⟩ ⟨chainPerson (2 ^ 32), by decide +kernel, rfl⟩
  exact absurd (dist_lt_of_ic14Right (nodupAdjacency_chain _) hright.1 hdist) (by decide)

end OpenGraph

end LsmGraph
