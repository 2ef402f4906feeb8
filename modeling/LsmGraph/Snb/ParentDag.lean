import LsmGraph.Library.ShortestPaths
import LsmGraph.Snb.ShortestPath
import Mathlib.Data.List.GetD

/-! # The search of IC14

`shortest_path_parent_dag` searches level by level and numbers the vertices in the order in which it
meets them; their depths and parents are lists over these numbers. It stops at the end of the level
in which the goal was met. `shortestPathParentDag_spec` says what it has recorded then. The depths
are `u32` and wrap; a `fuel` argument bounds the number of levels. -/

namespace LsmGraph

open Bfs KeyedSort

/-- The vectors of `shortest_path_parent_dag`, the map `index` and what the level in hand has found.
All numbers in it are those of vertices (`DagSearch.Wf`), so no access falls back on a default. -/
structure DagSearch where
  vids : List VertexId
  depths : List UInt32
  parents : List (List Nat)
  index : VertexId → Option Nat
  next : List Nat
  goalIdx : Option Nat
  goalDepth : Option UInt32

def DagSearch.init (start : VertexId) : DagSearch where
  vids := [start]
  depths := [0]
  parents := [[]]
  index := Function.update (fun _ => none) start (some 0)
  next := []
  goalIdx := none
  goalDepth := none

/-- One neighbour of the vertex with number `idx`: known already, or new. -/
def DagSearch.meet (goal : VertexId) (nextDepth : UInt32) (idx : Nat) (s : DagSearch)
    (nbr : VertexId) : DagSearch :=
  match s.index nbr with
  | some nidx =>
      if s.depths.getD nidx 0 = nextDepth then
        { s with parents := s.parents.modify nidx (· ++ [idx]) }
      else s
  | none =>
      let nidx := s.vids.length
      { vids := s.vids ++ [nbr]
        depths := s.depths ++ [nextDepth]
        parents := s.parents ++ [[idx]]
        index := Function.update s.index nbr (some nidx)
        next := s.next ++ [nidx]
        goalIdx := if nbr = goal then some nidx else s.goalIdx
        goalDepth := if nbr = goal then some nextDepth else s.goalDepth }

namespace OpenGraph

variable (g : OpenGraph)

/-- The turn of the inner loop for the vertex with number `idx`. -/
def dagVisit (goal : VertexId) (nextDepth : UInt32) (s : DagSearch) (idx : Nat) : DagSearch :=
  (g.knowsNeighbors (s.vids.getD idx 0)).foldl (DagSearch.meet goal nextDepth idx) s

/-- The loop over the levels, from a frontier. -/
def dagLoop (goal : VertexId) : Nat → List Nat → DagSearch → Option DagSearch
  | 0, _, _ => none
  | _ + 1, [], s => some s
  | fuel + 1, idx :: frontier, s =>
      if s.goalIdx.isSome then some s
      else
        let nextDepth := s.depths.getD idx 0 + 1
        let s := (idx :: frontier).foldl (g.dagVisit goal nextDepth) s
        dagLoop goal fuel s.next { s with next := [] }

end OpenGraph

/-- What the search returns. -/
structure ParentDag where
  vids : List VertexId
  parents : List (List Nat)
  goalIdx : Nat
  goalDepth : UInt32

/-- `shortest_path_parent_dag`, and `none` when the fuel is used up. -/
def OpenGraph.shortestPathParentDag (g : OpenGraph) (fuel : Nat) (start goal : VertexId) :
    Option (Option ParentDag) :=
  (g.dagLoop goal fuel [0] (.init start)).map fun s => do
    let goalIdx ← s.goalIdx
    let goalDepth ← s.goalDepth
    some ⟨s.vids, s.parents, goalIdx, goalDepth⟩

/-! ## Numbers and vertices -/

/-- A vector that has grown by one. -/
theorem getD_concat {α : Type*} (l : List α) (a d : α) (i : Nat) :
    (l ++ [a]).getD i d = if i = l.length then a else l.getD i d := by
  rcases Nat.lt_trichotomy i l.length with hlt | rfl | hgt
  · rw [List.getD_append _ _ _ _ hlt, if_neg hlt.ne]
  · rw [List.getD_append_right _ _ _ _ le_rfl, Nat.sub_self, if_pos rfl, List.getD_cons_zero]
  · rw [if_neg hgt.ne', List.getD_eq_default _ _ hgt.le, List.getD_eq_default]
    rw [List.length_append, List.length_singleton]
    exact hgt

namespace DagSearch

variable {goal u v w nbr : VertexId} {nextDepth : UInt32} {idx : Nat} {s s' s'' : DagSearch}

def vid (s : DagSearch) (i : Nat) : VertexId := s.vids.getD i 0

/-- The parents of a vertex, as vertices. -/
def parentsOf (s : DagSearch) (v : VertexId) : List VertexId :=
  match s.index v with
  | some i => (s.parents.getD i []).map s.vid
  | none => []

def depthOf (s : DagSearch) (v : VertexId) : UInt32 :=
  match s.index v with
  | some i => s.depths.getD i 0
  | none => 0

/-- The lists are over the same numbers, and the map knows them all. -/
structure Wf (goal : VertexId) (s : DagSearch) : Prop where
  length_depths : s.depths.length = s.vids.length
  length_parents : s.parents.length = s.vids.length
  index_iff : ∀ v i, s.index v = some i ↔ s.vids[i]? = some v
  parents_lt : ∀ i, ∀ p ∈ s.parents.getD i [], p < s.vids.length
  next_lt : ∀ i ∈ s.next, i < s.vids.length
  goalIdx_eq : s.goalIdx = s.index goal
  goalDepth_eq : s.goalDepth = (s.index goal).map fun i => s.depths.getD i 0

theorem Wf.index_eq_none (h : s.Wf goal) : s.index v = none ↔ v ∉ s.vids := by
  rw [Option.eq_none_iff_forall_ne_some]
  simp only [ne_eq, h.index_iff, List.mem_iff_getElem?, not_exists]

theorem Wf.exists_index (h : s.Wf goal) (hv : v ∈ s.vids) :
    ∃ i, s.index v = some i ∧ i < s.vids.length ∧ s.vid i = v := by
  obtain ⟨i, hi⟩ := List.mem_iff_getElem?.mp hv
  refine ⟨i, (h.index_iff v i).mpr hi, (List.getElem?_eq_some_iff.mp hi).1, ?_⟩
  rw [vid, List.getD_eq_getElem?_getD, hi, Option.getD_some]

theorem Wf.index_vid (h : s.Wf goal) {i : Nat} (hi : i < s.vids.length) :
    s.index (s.vid i) = some i := by
  rw [h.index_iff, vid, List.getD_eq_getElem?_getD, List.getElem?_eq_getElem hi, Option.getD_some]

theorem vid_mem {i : Nat} (hi : i < s.vids.length) : s.vid i ∈ s.vids := by
  rw [vid, List.getD_eq_getElem _ _ hi]
  exact List.getElem_mem hi

theorem index_init {start : VertexId} (hne : v ≠ start) : (init start).index v = none :=
  show Function.update (fun _ => none) start (some 0) v = none from Function.update_of_ne hne _ _

theorem wf_init {start : VertexId} (hne : start ≠ goal) : (init start).Wf goal where
  length_depths := rfl
  length_parents := rfl
  index_iff v i := by
    by_cases hv : v = start
    · subst hv
      cases i <;> simp [init]
    · cases i <;> simp [init, Function.update_of_ne hv, Ne.symm hv]
  parents_lt i p hp := by cases i <;> simp [init] at hp
  next_lt i hi := absurd hi List.not_mem_nil
  goalIdx_eq := (index_init hne.symm).symm
  goalDepth_eq := by
    rw [index_init hne.symm]
    rfl

/-- **What the inner loop does** with the neighbours of a vertex `u`, as vertices. -/
structure Scanned (goal u : VertexId) (nextDepth : UInt32) (s : DagSearch) (nbrs : List VertexId)
    (s' : DagSearch) : Prop where
  wf : s'.Wf goal
  vids_eq : s'.vids = s.vids ++ firstByKey id s.vids nbrs
  next_eq : s'.next.map s'.vid = s.next.map s.vid ++ firstByKey id s.vids nbrs
  parentsOf_old : ∀ v ∈ s.vids, s'.parentsOf v =
    if v ∈ nbrs ∧ s.depthOf v = nextDepth then s.parentsOf v ++ [u] else s.parentsOf v
  parentsOf_new : ∀ v ∈ nbrs, v ∉ s.vids → s'.parentsOf v = [u]
  depthOf_old : ∀ v ∈ s.vids, s'.depthOf v = s.depthOf v
  depthOf_new : ∀ v ∈ nbrs, v ∉ s.vids → s'.depthOf v = nextDepth

theorem Wf.scanned_nil (h : s.Wf goal) : Scanned goal u nextDepth s [] s where
  wf := h
  vids_eq := (List.append_nil _).symm
  next_eq := (List.append_nil _).symm
  parentsOf_old v _ := by rw [if_neg fun hand => List.not_mem_nil hand.1]
  parentsOf_new v hv := absurd hv List.not_mem_nil
  depthOf_old v _ := rfl
  depthOf_new v hv := absurd hv List.not_mem_nil

/-- Numbers keep their vertices. -/
theorem Scanned.vid_eq {nbrs : List VertexId} (h : Scanned goal u nextDepth s nbrs s') {i : Nat}
    (hi : i < s.vids.length) : s'.vid i = s.vid i := by
  rw [vid, vid, h.vids_eq, List.getD_append _ _ _ _ hi]

/-- Two vertices have the same number only if they are the same. -/
theorem Wf.index_inj (h : s.Wf goal) {i j : Nat} (hi : s.index v = some i)
    (hj : s.index w = some j) : j = i ↔ w = v := by
  constructor
  · rintro rfl
    exact Option.some.inj (((h.index_iff w j).mp hj).symm.trans ((h.index_iff v j).mp hi))
  · rintro rfl
    exact Option.some.inj (hj.symm.trans hi)

/-- One more parent of a number. -/
theorem getD_modify_parents {parents : List (List Nat)} {i : Nat} (idx : Nat)
    (hi : i < parents.length) (j : Nat) : (parents.modify i (· ++ [idx])).getD j [] =
      if j = i then parents.getD j [] ++ [idx] else parents.getD j [] := by
  rw [List.getD_eq_getElem?_getD, List.getD_eq_getElem?_getD]
  by_cases hj : j = i
  · subst hj
    rw [List.getElem?_modify_eq, if_pos rfl, List.getElem?_eq_getElem hi]
    rfl
  · rw [List.getElem?_modify_ne _ _ (Ne.symm hj), if_neg hj]

/-- A neighbour that is known. -/
theorem Wf.meet_known (h : s.Wf goal) (hidx : idx < s.vids.length) (hv : v ∈ s.vids) :
    Scanned goal (s.vid idx) nextDepth s [v] (s.meet goal nextDepth idx v) := by
  obtain ⟨i, hindex, hi, -⟩ := h.exists_index hv
  have hfirst : firstByKey id s.vids [v] = [] := by
    rw [firstByKey_cons, if_pos (show id v ∈ s.vids from hv), firstByKey_nil]
  have hself : s.depthOf v = s.depths.getD i 0 := by rw [depthOf, hindex]
  have hmem : ∀ w, w ∈ [v] ↔ w = v := fun w => List.mem_singleton
  unfold meet
  rw [hindex]
  by_cases hdepth : s.depths.getD i 0 = nextDepth
  · -- only the parents of that number change
    have hget := getD_modify_parents idx (h.length_parents ▸ hi)
    simp only [hdepth, if_true]
    refine
      { wf :=
          { h with
            length_parents := by rw [List.length_modify, h.length_parents]
            parents_lt := fun j p hp => ?_ }
        vids_eq := by rw [hfirst, List.append_nil]
        next_eq := by rw [hfirst, List.append_nil]; rfl
        parentsOf_old := fun w hw => ?_
        parentsOf_new := fun w hw hnot => absurd ((hmem w).mp hw ▸ hv) hnot
        depthOf_old := fun w _ => rfl
        depthOf_new := fun w hw hnot => absurd ((hmem w).mp hw ▸ hv) hnot }
    · dsimp only at hp
      rw [hget] at hp
      split at hp
      · rcases List.mem_append.mp hp with hp | hp
        · exact h.parents_lt j p hp
        · exact List.mem_singleton.mp hp ▸ hidx
      · exact h.parents_lt j p hp
    · obtain ⟨j, hj, -⟩ := h.exists_index hw
      -- the number is that of the neighbour only for the neighbour itself
      have hinj := h.index_inj hindex hj
      rw [parentsOf, parentsOf]
      dsimp only
      rw [hj]
      dsimp only
      rw [hget]
      by_cases heq : w = v
      · rw [if_pos (hinj.mpr heq), if_pos ⟨(hmem w).mpr heq, heq ▸ hself.trans hdepth⟩,
          List.map_append]
        rfl
      · rw [if_neg (hinj.not.mpr heq), if_neg fun hand => heq ((hmem w).mp hand.1)]
        rfl
  · simp only [hdepth, if_false]
    refine
      { wf := h
        vids_eq := by rw [hfirst, List.append_nil]
        next_eq := by rw [hfirst, List.append_nil]
        parentsOf_old := fun w hw => ?_
        parentsOf_new := fun w hw hnot => absurd ((hmem w).mp hw ▸ hv) hnot
        depthOf_old := fun w _ => rfl
        depthOf_new := fun w hw hnot => absurd ((hmem w).mp hw ▸ hv) hnot }
    refine (if_neg ?_).symm
    rintro ⟨hwv, hnext⟩
    rw [(hmem w).mp hwv, hself] at hnext
    exact hdepth hnext

/-! A neighbour that is new stands behind all others, in every vector. -/

theorem vids_meet_new (hindex : s.index v = none) :
    (s.meet goal nextDepth idx v).vids = s.vids ++ [v] := by
  rw [meet, hindex]

theorem vid_meet_new (hindex : s.index v = none) (i : Nat) :
    (s.meet goal nextDepth idx v).vid i = if i = s.vids.length then v else s.vid i := by
  rw [vid, vids_meet_new hindex]
  exact getD_concat s.vids v 0 i

theorem parents_meet_new (h : s.Wf goal) (hindex : s.index v = none) (i : Nat) :
    (s.meet goal nextDepth idx v).parents.getD i [] =
      if i = s.vids.length then [idx] else s.parents.getD i [] := by
  rw [meet, hindex, ← h.length_parents]
  exact getD_concat s.parents [idx] [] i

theorem depths_meet_new (h : s.Wf goal) (hindex : s.index v = none) (i : Nat) :
    (s.meet goal nextDepth idx v).depths.getD i 0 =
      if i = s.vids.length then nextDepth else s.depths.getD i 0 := by
  rw [meet, hindex, ← h.length_depths]
  exact getD_concat s.depths nextDepth 0 i

theorem index_meet_new (hindex : s.index v = none) (w : VertexId) :
    (s.meet goal nextDepth idx v).index w = if w = v then some s.vids.length else s.index w := by
  rw [meet, hindex]
  exact Function.update_apply s.index v _ w

theorem map_vid_meet_new (hindex : s.index v = none) {l : List Nat}
    (hl : ∀ i ∈ l, i < s.vids.length) :
    l.map (s.meet goal nextDepth idx v).vid = l.map s.vid :=
  List.map_congr_left fun i hi => by rw [vid_meet_new hindex, if_neg (hl i hi).ne]

/-- The vertices known before keep their numbers. -/
theorem Wf.index_meet_of_mem (h : s.Wf goal) (nextDepth : UInt32) (idx : Nat)
    (hindex : s.index v = none) (hw : w ∈ s.vids) :
    ∃ i, s.index w = some i ∧ i < s.vids.length ∧
      (s.meet goal nextDepth idx v).index w = some i := by
  obtain ⟨i, hi, hlt, -⟩ := h.exists_index hw
  refine ⟨i, hi, hlt, ?_⟩
  have hne : w ≠ v := by
    rintro rfl
    exact h.index_eq_none.mp hindex hw
  rw [index_meet_new hindex, if_neg hne, hi]

theorem Wf.meet_new_index_iff (h : s.Wf goal) (hindex : s.index v = none) (w : VertexId) (i : Nat) :
    (s.meet goal nextDepth idx v).index w = some i ↔
      (s.meet goal nextDepth idx v).vids[i]? = some w := by
  have hv := h.index_eq_none.mp hindex
  rw [vids_meet_new hindex, index_meet_new hindex]
  rcases Nat.lt_trichotomy i s.vids.length with hlt | rfl | hgt
  · rw [List.getElem?_append_left hlt, ← h.index_iff]
    by_cases heq : w = v
    · subst heq
      rw [if_pos rfl, hindex]
      exact iff_of_false (fun hi => hlt.ne' (Option.some.inj hi)) nofun
    · rw [if_neg heq]
  · rw [List.getElem?_concat_length]
    by_cases heq : w = v
    · rw [if_pos heq, heq]
      exact iff_of_true rfl rfl
    · rw [if_neg heq, h.index_iff, List.getElem?_eq_none le_rfl]
      exact iff_of_false nofun fun hi => heq (Option.some.inj hi).symm
  · rw [List.getElem?_eq_none (by rw [List.length_append, List.length_singleton]; exact hgt)]
    by_cases heq : w = v
    · rw [if_pos heq]
      exact iff_of_false (fun hi => hgt.ne (Option.some.inj hi)) nofun
    · rw [if_neg heq, h.index_iff, List.getElem?_eq_none hgt.le]

theorem Wf.wf_meet_new (h : s.Wf goal) (hidx : idx < s.vids.length) (hindex : s.index v = none) :
    (s.meet goal nextDepth idx v).Wf goal := by
  have hlength : (s.meet goal nextDepth idx v).vids.length = s.vids.length + 1 := by
    rw [vids_meet_new hindex, List.length_append, List.length_singleton]
  refine
    { length_depths := ?_
      length_parents := ?_
      index_iff := h.meet_new_index_iff hindex
      parents_lt := fun i p hp => ?_
      next_lt := fun i hi => ?_
      goalIdx_eq := ?_
      goalDepth_eq := ?_ }
  · rw [hlength, meet, hindex, ← h.length_depths]
    exact List.length_append
  · rw [hlength, meet, hindex, ← h.length_parents]
    exact List.length_append
  · rw [hlength]
    rw [parents_meet_new h hindex] at hp
    split at hp
    · exact List.mem_singleton.mp hp ▸ hidx.trans (Nat.lt_succ_self _)
    · exact (h.parents_lt i p hp).trans (Nat.lt_succ_self _)
  · rw [hlength]
    rw [meet, hindex] at hi
    rcases List.mem_append.mp hi with hi | hi
    · exact (h.next_lt i hi).trans (Nat.lt_succ_self _)
    · exact List.mem_singleton.mp hi ▸ Nat.lt_succ_self _
  · rw [index_meet_new hindex, ← h.goalIdx_eq, meet, hindex]
    exact if_congr eq_comm rfl rfl
  · have hgoal : (s.meet goal nextDepth idx v).goalDepth =
        if v = goal then some nextDepth else s.goalDepth := by rw [meet, hindex]
    rw [hgoal, index_meet_new hindex, h.goalDepth_eq]
    by_cases heq : v = goal
    · rw [if_pos heq, if_pos heq.symm, Option.map_some, depths_meet_new h hindex, if_pos rfl]
    · rw [if_neg heq, if_neg (Ne.symm heq)]
      refine Option.map_congr fun i hi => ?_
      have hlt := (List.getElem?_eq_some_iff.mp ((h.index_iff goal i).mp hi)).1
      rw [depths_meet_new h hindex, if_neg hlt.ne]

/-- A neighbour that is new. -/
theorem Wf.meet_new (h : s.Wf goal) (hidx : idx < s.vids.length) (hv : v ∉ s.vids) :
    Scanned goal (s.vid idx) nextDepth s [v] (s.meet goal nextDepth idx v) := by
  have hindex := h.index_eq_none.mpr hv
  have hfirst : firstByKey id s.vids [v] = [v] := by
    rw [firstByKey_cons, if_neg (show id v ∉ s.vids from hv), firstByKey_nil]
  refine
    { wf := h.wf_meet_new hidx hindex
      vids_eq := by rw [hfirst, vids_meet_new hindex]
      next_eq := ?_
      parentsOf_old := fun w hw => ?_
      parentsOf_new := fun w hw _ => ?_
      depthOf_old := fun w hw => ?_
      depthOf_new := fun w hw _ => ?_ }
  · have hnext : (s.meet goal nextDepth idx v).next = s.next ++ [s.vids.length] := by
      rw [meet, hindex]
    rw [hnext, List.map_append, map_vid_meet_new hindex h.next_lt, hfirst, List.map_singleton,
      vid_meet_new hindex, if_pos rfl]
  · obtain ⟨i, hi, hlt, hi'⟩ := h.index_meet_of_mem nextDepth idx hindex hw
    have hnot : ¬ (w ∈ [v] ∧ s.depthOf w = nextDepth) := fun hand =>
      hv (List.mem_singleton.mp hand.1 ▸ hw)
    rw [if_neg hnot]
    simp only [parentsOf, hi, hi']
    rw [parents_meet_new h hindex, if_neg hlt.ne]
    exact map_vid_meet_new hindex (h.parents_lt i)
  · simp only [List.mem_singleton.mp hw, parentsOf, index_meet_new hindex, if_true]
    rw [parents_meet_new h hindex, if_pos rfl]
    exact map_vid_meet_new hindex fun i hi => List.mem_singleton.mp hi ▸ hidx
  · obtain ⟨i, hi, hlt, hi'⟩ := h.index_meet_of_mem nextDepth idx hindex hw
    simp only [depthOf, hi, hi']
    rw [depths_meet_new h hindex, if_neg hlt.ne]
  · simp only [List.mem_singleton.mp hw, depthOf, index_meet_new hindex, if_true]
    rw [depths_meet_new h hindex, if_pos rfl]

/-- One more neighbour, another than those before. -/
theorem Scanned.append {nbrs : List VertexId} (h : Scanned goal u nextDepth s nbrs s')
    (h' : Scanned goal u nextDepth s' [v] s'') (hv : v ∉ nbrs) :
    Scanned goal u nextDepth s (nbrs ++ [v]) s'' := by
  have hmem : ∀ w, w ∈ nbrs ++ [v] ↔ w ∈ nbrs ∨ w = v := fun w => by simp
  have hsub : ∀ w ∈ s.vids, w ∈ s'.vids := fun w hw => h.vids_eq ▸ List.mem_append_left _ hw
  -- `v` is not among the neighbours before it, so none of them has made it known
  have hknown : v ∈ s'.vids ↔ v ∈ s.vids := by
    rw [h.vids_eq, List.mem_append, mem_firstByKey_id]
    exact or_iff_left fun hand => hv hand.1
  have hfirst : firstByKey id s.vids (nbrs ++ [v]) =
      firstByKey id s.vids nbrs ++ firstByKey id s'.vids [v] := by
    rw [firstByKey_append]
    congr 1
    refine firstByKey_congr fun w hw => ?_
    rw [List.mem_singleton.mp hw, List.map_id, List.mem_append]
    exact (or_iff_right hv).trans hknown.symm
  refine
    { wf := h'.wf
      vids_eq := by rw [h'.vids_eq, h.vids_eq, hfirst, List.append_assoc, h.vids_eq]
      next_eq := by rw [h'.next_eq, h.next_eq, hfirst, List.append_assoc]
      parentsOf_old := fun w hw => ?_
      parentsOf_new := fun w hw hnot => ?_
      depthOf_old := fun w hw => (h'.depthOf_old w (hsub w hw)).trans (h.depthOf_old w hw)
      depthOf_new := fun w hw hnot => ?_ }
  · rw [h'.parentsOf_old w (hsub w hw), h.depthOf_old w hw, h.parentsOf_old w hw]
    simp only [List.mem_append, List.mem_singleton]
    by_cases heq : w = v
    · subst heq
      simp [hv]
    · simp [heq]
  · rcases (hmem w).mp hw with hw | rfl
    · have hin : w ∈ s'.vids := by
        rw [h.vids_eq]
        exact List.mem_append_right _ (mem_firstByKey_id.mpr ⟨hw, hnot⟩)
      have hne : w ∉ [v] := fun heq => hv (List.mem_singleton.mp heq ▸ hw)
      rw [h'.parentsOf_old w hin, if_neg fun hand => hne hand.1, h.parentsOf_new w hw hnot]
    · exact h'.parentsOf_new w List.mem_cons_self (hknown.not.mpr hnot)
  · rcases (hmem w).mp hw with hw | rfl
    · have hin : w ∈ s'.vids := by
        rw [h.vids_eq]
        exact List.mem_append_right _ (mem_firstByKey_id.mpr ⟨hw, hnot⟩)
      rw [h'.depthOf_old w hin, h.depthOf_new w hw hnot]
    · exact h'.depthOf_new w List.mem_cons_self (hknown.not.mpr hnot)

/-- **The inner loop** over neighbours without repetition. -/
theorem Wf.scanned_foldl (h : s.Wf goal) (hidx : idx < s.vids.length) {nbrs : List VertexId}
    (hnodup : nbrs.Nodup) :
    Scanned goal (s.vid idx) nextDepth s nbrs (nbrs.foldl (meet goal nextDepth idx) s) := by
  induction nbrs using List.reverseRecOn with
  | nil => exact h.scanned_nil
  | append_singleton nbrs v ih =>
      -- the last neighbour is new or known after those before it
      obtain ⟨hnbrs, -, hdisjoint⟩ := List.nodup_append'.mp hnodup
      have hscanned := ih hnbrs
      have hidx' : idx < (nbrs.foldl (meet goal nextDepth idx) s).vids.length := by
        rw [hscanned.vids_eq, List.length_append]
        omega
      rw [List.foldl_append, List.foldl_cons, List.foldl_nil]
      refine hscanned.append ?_ fun hv => hdisjoint hv List.mem_cons_self
      rw [← hscanned.vid_eq hidx]
      by_cases hv : v ∈ (nbrs.foldl (meet goal nextDepth idx) s).vids
      · exact hscanned.wf.meet_known hidx' hv
      · exact hscanned.wf.meet_new hidx' hv

/-- Every new vertex is one of the next level. -/
theorem Scanned.length_eq {nbrs : List VertexId} (h : Scanned goal u nextDepth s nbrs s') :
    s'.vids.length + s.next.length = s.vids.length + s'.next.length := by
  have hnext := congrArg List.length h.next_eq
  rw [List.length_map, List.length_append, List.length_map] at hnext
  rw [hnext, h.vids_eq, List.length_append]
  omega

end DagSearch

/-! ## The levels -/

namespace OpenGraph

open DagSearch

variable {g : OpenGraph} {start goal : VertexId} {d idx : Nat} {rest : List Nat} {s : DagSearch}

/-- No adjacency list has an entry twice. -/
def NodupAdjacency (g : OpenGraph) : Prop := ∀ key, ((g.adjacency key).getD []).Nodup

/-- **What holds while a level is worked through.** The parents are right as long as the depths do
not wrap. -/
structure LevelInv (g : OpenGraph) (start goal : VertexId) (d : Nat) (rest : List Nat)
    (s : DagSearch) : Prop where
  wf : s.Wf goal
  rest_lt : ∀ i ∈ rest, i < s.vids.length
  exploring : Exploring g.knowsNeighbors start d (rest.map s.vid) (s.next.map s.vid) s.vids
  depthOf : ∀ v ∈ s.vids, ∀ k, Dist g.knowsNeighbors start k v → s.depthOf v = UInt32.ofNat k
  parents : d + 1 < 2 ^ 32 →
    ParentsUpTo g.knowsNeighbors start d (rest.map s.vid) s.vids s.parentsOf

theorem levelInv_start (hne : start ≠ goal) : LevelInv g start goal 0 [0] (.init start) where
  wf := wf_init hne
  rest_lt i hi := List.mem_singleton.mp hi ▸ Nat.zero_lt_one
  exploring := exploring_start
  depthOf v hv k hk := by
    rw [List.mem_singleton.mp hv] at hk ⊢
    rw [hk.unique dist_zero]
    simp [DagSearch.depthOf, init]
  parents _ := parentsUpTo_start (by simp [parentsOf, init])

/-- What has been met is at most one step beyond the level. -/
theorem LevelInv.exists_dist (h : LevelInv g start goal d rest s) {v : VertexId}
    (hv : v ∈ s.vids) : ∃ k ≤ d + 1, Dist g.knowsNeighbors start k v := by
  rcases (h.exploring.mem_seen_iff v).mp hv with hball | ⟨u, hu, -, hmem⟩
  · obtain ⟨k, hk, hdist⟩ := ball_iff_exists_dist.mp hball
    exact ⟨k, hk.trans (Nat.le_succ d), hdist⟩
  · exact (hu.1.tail hmem).exists_dist

/-- The depth tells the vertices of the next level, unless it wraps. -/
theorem LevelInv.depthOf_eq_iff (h : LevelInv g start goal d rest s) (hd : d + 1 < 2 ^ 32)
    {v : VertexId} (hv : v ∈ s.vids) :
    s.depthOf v = UInt32.ofNat (d + 1) ↔ Dist g.knowsNeighbors start (d + 1) v := by
  constructor
  · intro heq
    obtain ⟨k, hk, hdist⟩ := h.exists_dist hv
    rw [h.depthOf v hv k hdist] at heq
    have hnat := congrArg UInt32.toNat heq
    rw [UInt32.toNat_ofNat_of_lt' (hk.trans_lt hd), UInt32.toNat_ofNat_of_lt' hd] at hnat
    exact hnat ▸ hdist
  · exact h.depthOf v hv (d + 1)

/-- **Step lemma.** The vertex in hand is done. -/
theorem LevelInv.visit (hnodup : g.NodupAdjacency) (h : LevelInv g start goal d (idx :: rest) s) :
    LevelInv g start goal d rest (g.dagVisit goal (UInt32.ofNat (d + 1)) s idx) ∧
      (g.dagVisit goal (UInt32.ofNat (d + 1)) s idx).vids.length + s.next.length =
        s.vids.length + (g.dagVisit goal (UInt32.ofNat (d + 1)) s idx).next.length := by
  have hidx := h.rest_lt idx List.mem_cons_self
  have hscanned : Scanned goal (s.vid idx) (UInt32.ofNat (d + 1)) s
      (g.knowsNeighbors (s.vid idx)) (g.dagVisit goal (UInt32.ofNat (d + 1)) s idx) :=
    h.wf.scanned_foldl hidx (hnodup (s.vid idx, EdgeLabel.knows.asI32))
  refine ⟨?_, hscanned.length_eq⟩
  generalize g.dagVisit goal (UInt32.ofNat (d + 1)) s idx = s' at hscanned ⊢
  have hrest : rest.map s'.vid = rest.map s.vid :=
    List.map_congr_left fun i hi => hscanned.vid_eq (h.rest_lt i (List.mem_cons_of_mem _ hi))
  have hexploring := h.exploring
  rw [List.map_cons] at hexploring
  refine
    { wf := hscanned.wf
      rest_lt := fun i hi => ?_
      exploring := ?_
      depthOf := fun v hv k hk => ?_
      parents := fun hd => ?_ }
  · have hlt := h.rest_lt i (List.mem_cons_of_mem _ hi)
    rw [hscanned.vids_eq, List.length_append]
    omega
  · rw [hrest, hscanned.next_eq, hscanned.vids_eq]
    exact hexploring.visit
  · rw [hscanned.vids_eq, List.mem_append, mem_firstByKey_id] at hv
    -- a vertex met just now is at distance `d + 1`
    rcases hv with hv | ⟨hmem, hnew⟩
    · rw [hscanned.depthOf_old v hv, h.depthOf v hv k hk]
    · rw [hscanned.depthOf_new v hmem hnew, hk.unique (hexploring.dist_of_notMem hmem hnew)]
  · have hparents := h.parents hd
    rw [List.map_cons] at hparents
    rw [hrest, hscanned.vids_eq]
    exact hparents.visit hexploring (fun v hv => h.depthOf_eq_iff hd hv) hscanned.parentsOf_old
      hscanned.parentsOf_new

/-- **Run lemma.** The vertices of the level one after another. -/
theorem LevelInv.visitAll (hnodup : g.NodupAdjacency) (h : LevelInv g start goal d rest s) :
    LevelInv g start goal d [] (rest.foldl (g.dagVisit goal (UInt32.ofNat (d + 1))) s) ∧
      (rest.foldl (g.dagVisit goal (UInt32.ofNat (d + 1))) s).vids.length + s.next.length =
        s.vids.length + (rest.foldl (g.dagVisit goal (UInt32.ofNat (d + 1))) s).next.length := by
  induction rest generalizing s with
  | nil => exact ⟨h, rfl⟩
  | cons idx rest ih =>
      obtain ⟨hvisit, hlength⟩ := h.visit hnodup
      obtain ⟨hall, hlength'⟩ := ih hvisit
      exact ⟨hall, by rw [List.foldl_cons]; omega⟩

/-- The next level begins. -/
theorem LevelInv.nextLevel (h : LevelInv g start goal d [] s) :
    LevelInv g start goal (d + 1) s.next { s with next := [] } where
  wf := { h.wf with next_lt := fun _ hi => absurd hi List.not_mem_nil }
  rest_lt := h.wf.next_lt
  exploring := h.exploring.nextLevel
  depthOf := h.depthOf
  parents hd := (h.parents ((Nat.lt_succ_self _).trans hd)).nextLevel fun _ hv =>
    h.exploring.mem_nxt_of_done.mpr hv

/-- What the search has found when it stops. -/
structure SearchDone (g : OpenGraph) (start goal : VertexId) (s : DagSearch) : Prop where
  wf : s.Wf goal
  unreachable : goal ∉ s.vids → ∀ n, ¬ Walk g.knowsNeighbors start n goal
  reached : goal ∈ s.vids → ∃ n, Dist g.knowsNeighbors start n goal ∧
    s.depthOf goal = UInt32.ofNat n ∧
      (n < 2 ^ 32 → ParentsBelow g.knowsNeighbors start n s.parentsOf)

/-- The depth of the first vertex of the frontier stands for the level. -/
theorem LevelInv.nextDepth {frontier : List Nat}
    (h : LevelInv g start goal d (idx :: frontier) s) :
    s.depths.getD idx 0 + 1 = UInt32.ofNat (d + 1) := by
  have hidx := h.rest_lt idx List.mem_cons_self
  have hdist := h.exploring.rest_dist (s.vid idx) List.mem_cons_self
  have hdepthOf := h.depthOf _ (vid_mem hidx) d hdist
  rw [DagSearch.depthOf, h.wf.index_vid hidx] at hdepthOf
  dsimp only at hdepthOf
  rw [hdepthOf, UInt32.ofNat_add]
  rfl

/-- Nothing left and nothing collected: the goal is out of reach. -/
theorem LevelInv.searchDone_of_exhausted (h : LevelInv g start goal d [] s) (hnext : s.next = [])
    (hgoal : goal ∉ s.vids) : SearchDone g start goal s := by
  refine ⟨h.wf, fun _ n hwalk => hgoal ?_, fun hin => absurd hin hgoal⟩
  have hexploring := h.exploring
  rw [hnext] at hexploring
  exact hexploring.mem_seen_of_walk hwalk

/-- The goal was met in this level: it is one step beyond it. -/
theorem LevelInv.searchDone_of_met (h : LevelInv g start goal d [] s) (hmet : goal ∈ s.vids)
    (hball : ¬ Ball g.knowsNeighbors start d goal) :
    SearchDone g start goal { s with next := [] } := by
  obtain ⟨u, hu, -, hmem⟩ := ((h.exploring.mem_seen_iff goal).mp hmet).resolve_left hball
  have hdist := dist_succ_iff.mpr ⟨⟨u, hu, hmem⟩, hball⟩
  refine ⟨h.nextLevel.wf, fun hnot => absurd hmet hnot, fun _ =>
    ⟨d + 1, hdist, h.depthOf goal hmet _ hdist, fun hd => ?_⟩⟩
  exact (h.parents hd).parentsBelow h.exploring

/-- The loop stops once the goal has a number. -/
theorem dagLoop_of_met {fuel : Nat} {frontier : List Nat} (hwf : s.Wf goal) (hmet : goal ∈ s.vids) :
    g.dagLoop goal (fuel + 1) frontier s = some s := by
  cases frontier with
  | nil => rfl
  | cons idx frontier =>
      obtain ⟨i, hi, -⟩ := hwf.exists_index hmet
      have hsome : s.goalIdx.isSome := by
        rw [hwf.goalIdx_eq, hi]
        rfl
      rw [dagLoop, if_pos hsome]

/-- **The loop ends** before the fuel is used up, with the goal or with all there is to meet. -/
theorem dagLoop_spec (hnodup : g.NodupAdjacency) {fuel : Nat} {frontier : List Nat}
    (h : LevelInv g start goal d frontier s) (hnext : s.next = []) (hgoal : goal ∉ s.vids)
    (hfuel : 2 ^ 64 - s.vids.length + 1 < fuel) :
    ∃ s', g.dagLoop goal fuel frontier s = some s' ∧ SearchDone g start goal s' := by
  induction fuel generalizing d frontier s with
  | zero => exact absurd hfuel (Nat.not_lt_zero _)
  | succ fuel ih =>
      cases frontier with
      | nil => exact ⟨s, rfl, h.searchDone_of_exhausted hnext hgoal⟩
      | cons idx frontier =>
          have hnone : s.index goal = none := h.wf.index_eq_none.mpr hgoal
          obtain ⟨hall, hlength⟩ := h.visitAll hnodup
          rw [dagLoop, h.wf.goalIdx_eq, hnone, h.nextDepth, if_neg (by decide)]
          dsimp only
          generalize (idx :: frontier).foldl (g.dagVisit goal (UInt32.ofNat (d + 1))) s = s'
            at hall hlength ⊢
          have hlevel := hall.nextLevel
          obtain ⟨fuel, rfl⟩ := Nat.exists_eq_succ_of_ne_zero (show fuel ≠ 0 by omega)
          by_cases hmet : goal ∈ s'.vids
          · -- the goal is one step beyond this level, and the loop stops
            have hball : ¬ Ball g.knowsNeighbors start d goal := fun hball =>
              hgoal ((h.exploring.mem_seen_iff goal).mpr (Or.inl hball))
            exact ⟨_, dagLoop_of_met hlevel.wf hmet, hall.searchDone_of_met hmet hball⟩
          · cases hframe : s'.next with
            | nil =>
                refine ⟨{ s' with next := [] }, rfl, ?_⟩
                rw [hframe] at hlevel
                exact hlevel.searchDone_of_exhausted rfl hmet
            | cons idx' frontier' =>
                -- a level that found something leaves fewer vertex ids to find
                rw [← hframe]
                refine ih hlevel rfl hmet ?_
                have hle := length_le_of_nodup hall.exploring.seen_nodup
                rw [hnext, hframe, List.length_nil, List.length_cons] at hlength
                dsimp only
                omega

/-- **The search of IC14** from one vertex to another: the goal, if it was met, with its number and
its depth. -/
theorem shortestPathParentDag_spec (hnodup : g.NodupAdjacency) (hne : start ≠ goal) {fuel : Nat}
    (hfuel : 2 ^ 64 < fuel) :
    ∃ s, SearchDone g start goal s ∧ g.shortestPathParentDag fuel start goal =
      some ((s.index goal).map fun i => ⟨s.vids, s.parents, i, s.depths.getD i 0⟩) := by
  have hgoal : goal ∉ (init start).vids := fun hin => hne (List.mem_singleton.mp hin).symm
  have hlength : (init start).vids.length = 1 := rfl
  have hmeasure : 2 ^ 64 - (init start).vids.length + 1 < fuel := by
    rw [hlength]
    omega
  obtain ⟨s, hloop, hdone⟩ := dagLoop_spec hnodup (levelInv_start hne) rfl hgoal hmeasure
  refine ⟨s, hdone, ?_⟩
  rw [shortestPathParentDag, hloop, Option.map_some, hdone.wf.goalIdx_eq, hdone.wf.goalDepth_eq]
  cases s.index goal <;> rfl

end OpenGraph

end LsmGraph
