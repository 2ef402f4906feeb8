import LsmGraph.Library.Worklist
import LsmGraph.Snb.RecentMessages
import Mathlib.Data.Finset.Dedup
import Mathlib.Data.Finset.SDiff
import Mathlib.Data.Set.Finite.Range

/-! # Sets of vertices that the queries collect

`knows_bfs_2hop`, `knows_fof` and `bfs_non_xy_friends` collect friends and friends of friends, each
with its own way to leave out the start and what was met before; a person who knows himself gets
through one of them (`friendSetsAgree_iff`). `tag_class_ancestors_like_dgs` closes a tag class under
a relation with a worklist, which ends on any graph (`tagClassAncestors_spec`). A `HashSet` is a
finite set here. -/

namespace LsmGraph

open KeyedSort

/-! ## Inserting in a loop -/

/-- Insert the entries of a list that pass a test. -/
theorem mem_foldl_insert_if {α : Type*} [DecidableEq α] (p : α → Prop) [DecidablePred p] (l : List α)
    (s : Finset α) (a : α) :
    a ∈ l.foldl (fun s x => if p x then insert x s else s) s ↔ a ∈ s ∨ a ∈ l ∧ p a := by
  induction l generalizing s with
  | nil => simp
  | cons x l ih =>
      rw [List.foldl_cons, ih, List.mem_cons]
      by_cases hx : p x
      · rw [if_pos hx, Finset.mem_insert]
        constructor
        · rintro ((rfl | hs) | ⟨hl, ha⟩)
          · exact Or.inr ⟨Or.inl rfl, hx⟩
          · exact Or.inl hs
          · exact Or.inr ⟨Or.inr hl, ha⟩
        · rintro (hs | ⟨rfl | hl, ha⟩)
          · exact Or.inl (Or.inr hs)
          · exact Or.inl (Or.inl rfl)
          · exact Or.inr ⟨hl, ha⟩
      · rw [if_neg hx]
        refine or_congr_right (and_congr_left fun ha => (or_iff_right ?_).symm)
        rintro rfl
        exact hx ha

namespace OpenGraph

variable (g : OpenGraph)

/-! ## Friends -/

/-- The `HashSet` of `knows_bfs_2hop`. -/
def knowsBfs2hopSet (start : VertexId) : Finset VertexId :=
  let frontier := g.knowsNeighbors start
  let visited := frontier.foldl (fun visited vid => if vid ≠ start then insert vid visited else visited) ∅
  frontier.foldl
    (fun visited vid => (g.knowsNeighbors vid).foldl
      (fun visited nbr => if nbr ≠ start then insert nbr visited else visited) visited) visited

def knowsFof (start : VertexId) : Finset VertexId :=
  let hop1 := g.knowsNeighbors start
  let direct := hop1.toFinset
  hop1.foldl
    (fun out friend => (g.knowsNeighbors friend).foldl
      (fun out nbr => if nbr ≠ start ∧ nbr ∉ direct then insert nbr out else out) out) ∅

/-- The variables of `bfs_non_xy_friends`. -/
structure NonXy where
  visited : Finset VertexId
  nonXy : Finset VertexId
  counts : VertexId → Option (Int64 × Int64)

/-- A vertex that is kept is visited, and counts for nothing yet. -/
def NonXy.keep (s : NonXy) (v : VertexId) : NonXy where
  visited := insert v s.visited
  nonXy := insert v s.nonXy
  counts := Function.update s.counts v (some (0, 0))

def NonXy.visit (s : NonXy) (v : VertexId) : NonXy := { s with visited := insert v s.visited }

/-- A friend, whether or not it was visited. -/
def NonXy.friend (xyPersons : Finset VertexId) (s : NonXy) (vid : VertexId) : NonXy :=
  if vid ∉ xyPersons then s.keep vid else s.visit vid

/-- A friend of a friend, if it was not visited. -/
def NonXy.friendOfFriend (xyPersons : Finset VertexId) (s : NonXy) (nbr : VertexId) : NonXy :=
  if nbr ∉ s.visited ∧ nbr ∉ xyPersons then s.keep nbr else s.visit nbr

def bfsNonXyFriends (start : VertexId) (xyPersons : Finset VertexId) :
    Finset VertexId × (VertexId → Option (Int64 × Int64)) :=
  let frontier := g.knowsNeighbors start
  let s := frontier.foldl (NonXy.friend xyPersons)
    { visited := {start}, nonXy := ∅, counts := fun _ => none }
  let s := frontier.foldl
    (fun s vid => (g.knowsNeighbors vid).foldl (NonXy.friendOfFriend xyPersons) s) s
  (s.nonXy, s.counts)

variable {g} {start v : VertexId} {xyPersons : Finset VertexId}

/-- A friend of the start, or of a friend of it. -/
def Within2 (g : OpenGraph) (start v : VertexId) : Prop :=
  v ∈ g.knowsNeighbors start ∨ ∃ friend ∈ g.knowsNeighbors start, v ∈ g.knowsNeighbors friend

theorem mem_knowsBfs2hopSet : v ∈ g.knowsBfs2hopSet start ↔ v ≠ start ∧ g.Within2 start v := by
  rw [knowsBfs2hopSet]
  rw [← List.foldl_flatMap, mem_foldl_insert_if, mem_foldl_insert_if, List.mem_flatMap, Within2]
  simp only [Finset.notMem_empty, false_or]
  rw [and_comm (a := v ≠ start), or_and_right]

theorem mem_knowsFof :
    v ∈ g.knowsFof start ↔ v ≠ start ∧ g.Within2 start v ∧ v ∉ g.knowsNeighbors start := by
  rw [knowsFof]
  rw [← List.foldl_flatMap, mem_foldl_insert_if, List.mem_flatMap, List.mem_toFinset, Within2]
  simp only [Finset.notMem_empty, false_or]
  constructor
  · rintro ⟨hfof, hne, hnot⟩
    exact ⟨hne, Or.inr hfof, hnot⟩
  · rintro ⟨hne, hwithin, hnot⟩
    exact ⟨hwithin.resolve_left hnot, hne, hnot⟩

/-- The set does not depend on the order a `HashSet` is iterated in. -/
theorem toFinset_knowsBfs2hop (o : IterationOrder) (start : VertexId) :
    (g.knowsBfs2hop o start).toFinset = g.knowsBfs2hopSet start := by
  refine Finset.ext fun v => ?_
  rw [List.mem_toFinset, mem_knowsBfs2hopSet, knowsBfs2hop, IterationOrder.hashSet]
  rw [(o.perm _).mem_iff, mem_firstByKey_id]
  simp only [List.not_mem_nil, not_false_eq_true, and_true, List.mem_append, List.mem_filter,
    decide_eq_true_iff, List.mem_flatMap]
  rw [← or_and_right, and_comm]
  rfl

/-- The count map has the keys of the set. -/
def NonXy.Counted (s : NonXy) : Prop := ∀ v, s.counts v = if v ∈ s.nonXy then some (0, 0) else none

theorem NonXy.Counted.keep {s : NonXy} (h : s.Counted) (v : VertexId) : (s.keep v).Counted := by
  intro w
  rw [NonXy.keep]
  dsimp only
  by_cases hw : w = v
  · subst hw
    rw [Function.update_self, if_pos (Finset.mem_insert_self w _)]
  · rw [Function.update_of_ne hw, h w]
    exact if_congr (by rw [Finset.mem_insert, or_iff_right hw]) rfl rfl

theorem NonXy.Counted.visit {s : NonXy} (h : s.Counted) (v : VertexId) : (s.visit v).Counted := h

/-- **The first loop**: all friends are visited. -/
theorem NonXy.foldl_friend (l : List VertexId) {s : NonXy} (h : s.Counted) :
    let s' := l.foldl (NonXy.friend xyPersons) s
    (∀ v, v ∈ s'.visited ↔ v ∈ s.visited ∨ v ∈ l) ∧
      (∀ v, v ∈ s'.nonXy ↔ v ∈ s.nonXy ∨ v ∈ l ∧ v ∉ xyPersons) ∧ s'.Counted := by
  induction l generalizing s with
  | nil => simpa using h
  | cons x l ih =>
      rw [List.foldl_cons, friend]
      by_cases hx : x ∉ xyPersons
      · rw [if_pos hx]
        obtain ⟨hvisited, hnonXy, hcounted⟩ := ih (h.keep x)
        refine ⟨fun v => ?_, fun v => ?_, hcounted⟩
        · rw [hvisited]
          simp [keep, or_assoc, or_left_comm]
        · rw [hnonXy]
          by_cases hv : v = x
          · subst hv
            simp [keep, hx]
          · simp [keep, hv]
      · rw [if_neg hx]
        obtain ⟨hvisited, hnonXy, hcounted⟩ := ih (h.visit x)
        refine ⟨fun v => ?_, fun v => ?_, hcounted⟩
        · rw [hvisited]
          simp [visit, or_assoc, or_left_comm]
        · rw [hnonXy]
          by_cases hv : v = x
          · subst hv
            simp [visit, hx]
          · simp [visit, hv]

/-- **The second loop**: of the friends of friends, those not visited before are new. -/
theorem NonXy.foldl_friendOfFriend (l : List VertexId) {s : NonXy} (h : s.Counted) :
    let s' := l.foldl (NonXy.friendOfFriend xyPersons) s
    (∀ v, v ∈ s'.nonXy ↔ v ∈ s.nonXy ∨ v ∈ l ∧ v ∉ s.visited ∧ v ∉ xyPersons) ∧ s'.Counted := by
  induction l generalizing s with
  | nil => simpa using h
  | cons x l ih =>
      rw [List.foldl_cons, friendOfFriend]
      by_cases hx : x ∉ s.visited ∧ x ∉ xyPersons
      · rw [if_pos hx]
        obtain ⟨hnonXy, hcounted⟩ := ih (h.keep x)
        refine ⟨fun v => ?_, hcounted⟩
        rw [hnonXy]
        by_cases hv : v = x
        · subst hv
          simp [keep, hx]
        · simp [keep, hv]
      · rw [if_neg hx]
        obtain ⟨hnonXy, hcounted⟩ := ih (h.visit x)
        refine ⟨fun v => ?_, hcounted⟩
        rw [hnonXy]
        by_cases hv : v = x
        · subst hv
          simp [visit, hx]
        · simp [visit, hv]

/-- **The set and the keys of `bfs_non_xy_friends`**: a friend gets in even if it is the start. -/
theorem bfsNonXyFriends_spec (start : VertexId) (xyPersons : Finset VertexId) :
    (∀ v, v ∈ (g.bfsNonXyFriends start xyPersons).1 ↔ v ∉ xyPersons ∧
      (v ∈ g.knowsNeighbors start ∨ v ≠ start ∧ g.Within2 start v)) ∧
      ∀ v, (g.bfsNonXyFriends start xyPersons).2 v =
        if v ∈ (g.bfsNonXyFriends start xyPersons).1 then some (0, 0) else none := by
  have hempty : NonXy.Counted { visited := {start}, nonXy := ∅, counts := fun _ => none } :=
    fun v => (if_neg (Finset.notMem_empty v)).symm
  obtain ⟨hvisited, hfriends, hcounted⟩ :=
    @NonXy.foldl_friend xyPersons (g.knowsNeighbors start) _ hempty
  obtain ⟨hnonXy, hcounted'⟩ := @NonXy.foldl_friendOfFriend xyPersons
    ((g.knowsNeighbors start).flatMap g.knowsNeighbors) _ hcounted
  rw [bfsNonXyFriends]
  dsimp only
  rw [← List.foldl_flatMap]
  refine ⟨fun v => ?_, hcounted'⟩
  rw [hnonXy, hfriends, hvisited, List.mem_flatMap, Within2]
  simp only [Finset.notMem_empty, false_or, Finset.mem_singleton]
  tauto

/-! ## When they agree -/

/-- What the three helpers promise each other. -/
structure FriendSetsAgree (g : OpenGraph) (start : VertexId) (xyPersons : Finset VertexId) : Prop where
  nonXy_eq : (g.bfsNonXyFriends start xyPersons).1 = g.knowsBfs2hopSet start \ xyPersons
  counts_keys : ∀ v, (g.bfsNonXyFriends start xyPersons).2 v ≠ none ↔
    v ∈ (g.bfsNonXyFriends start xyPersons).1
  fof_eq : g.knowsFof start = g.knowsBfs2hopSet start \ (g.knowsNeighbors start).toFinset
  start_notMem_bfs : start ∉ g.knowsBfs2hopSet start
  start_notMem_fof : start ∉ g.knowsFof start
  start_notMem_nonXy : start ∉ (g.bfsNonXyFriends start xyPersons).1

/-- **The three helpers agree iff the start does not know himself**, or is one of the excluded. -/
theorem friendSetsAgree_iff (g : OpenGraph) (start : VertexId) (xyPersons : Finset VertexId) :
    g.FriendSetsAgree start xyPersons ↔ (start ∈ g.knowsNeighbors start → start ∈ xyPersons) := by
  obtain ⟨hnonXy, hcounts⟩ := g.bfsNonXyFriends_spec start xyPersons
  constructor
  · intro h hself
    by_contra hxy
    exact h.start_notMem_nonXy ((hnonXy start).mpr ⟨hxy, Or.inl hself⟩)
  · intro hself
    refine
      { nonXy_eq := Finset.ext fun v => ?_
        counts_keys := fun v => ?_
        fof_eq := Finset.ext fun v => ?_
        start_notMem_bfs := fun hmem => (mem_knowsBfs2hopSet.mp hmem).1 rfl
        start_notMem_fof := fun hmem => (mem_knowsFof.mp hmem).1 rfl
        start_notMem_nonXy := fun hmem => ?_ }
    · rw [hnonXy, Finset.mem_sdiff, mem_knowsBfs2hopSet, and_comm]
      refine and_congr_left fun hxy => ?_
      constructor
      · rintro (hfriend | hwithin)
        · refine ⟨?_, Or.inl hfriend⟩
          rintro rfl
          exact hxy (hself hfriend)
        · exact hwithin
      · exact Or.inr
    · rw [hcounts]
      by_cases hv : v ∈ (g.bfsNonXyFriends start xyPersons).1
      · simp [hv]
      · simp [hv]
    · rw [mem_knowsFof, Finset.mem_sdiff, mem_knowsBfs2hopSet, List.mem_toFinset, and_assoc]
    · obtain ⟨hxy, hor⟩ := (hnonXy start).mp hmem
      rcases hor with hfriend | hwithin
      · exact hxy (hself hfriend)
      · exact hwithin.1 rfl

end OpenGraph

/-- A graph in which `interactive_update_8` has made person 1 know himself. -/
def knowsHimself : OpenGraph where
  toSnbGraph := (SnbGraph.mk (fun _ => none) fun _ => none).runDgsHttpUpdate (.know 1 1 5)
  vertices vid :=
    if vid = encodeVid .person 1 then some (.person ⟨1, "", "", "", 0, 0, "", "", "", ""⟩) else none

namespace OpenGraph

/-- **A person who knows himself** is in his own set of friends, with no one excluded. -/
theorem friendSets_disagree :
    ¬ ∀ (g : OpenGraph) (start : VertexId) (xyPersons : Finset VertexId),
      g.FriendSetsAgree start xyPersons := fun hall =>
  absurd (hall knowsHimself (encodeVid .person 1) ∅).start_notMem_nonXy (by decide +kernel)

/-! ## Tag classes -/

variable (g : OpenGraph)

def tagClassAncestorsLikeDgs (fuel : Nat) (root : VertexId) : Option (Finset VertexId) :=
  Worklist.closeLoop (g.inNeighborsCached · .isSubclassOf) fuel [root] ∅

/-- **The closure of a tag class is exact**, and the search for it ends, whether or not the hierarchy
has cycles. -/
theorem tagClassAncestors_spec (root : VertexId) :
    ∃ out, (∃ n, ∀ fuel, n < fuel → g.tagClassAncestorsLikeDgs fuel root = some out) ∧
      ∀ v, v ∈ out ↔ Relation.ReflTransGen
        (fun tc parent => parent ∈ g.inNeighborsCached tc .isSubclassOf) root v :=
  Worklist.closeLoop_spec _ root

end OpenGraph

end LsmGraph
