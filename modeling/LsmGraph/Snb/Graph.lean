import LsmGraph.Snb.Adjacency
import Mathlib.Algebra.Group.Nat.Defs

/-! # The open SNB graph and a re-import of its updates

`SnbGraph` with the maps that edges live in. `insertEdgeByType` is how an update enters an open
graph: a destination that is not yet in the list goes to its end. Importing the same updates
(`reimport`) seeds a builder from the old adjacency and puts the newest destination first. The two
lists have the same members, but they are one list only under the condition of
`live_eq_reimport_iff`. -/

namespace LsmGraph

open KeyedSort AdjacencyBuilder

/-- `EdgeLabel`, with the discriminants of `types.rs`. -/
inductive EdgeLabel
  | knows
  | hasCreator
  | hasTag
  | hasType
  | isLocatedIn
  | isPartOf
  | likesComment
  | likesPost
  | replyOfComment
  | replyOfPost
  | containerOf
  | hasMember
  | hasModerator
  | hasInterest
  | studyAt
  | workAt
  | isSubclassOf
  deriving DecidableEq, Repr

/-- The edge type of the forward direction; the reverse edge has the negated type. -/
def EdgeLabel.asI32 : EdgeLabel → EdgeType
  | knows => 1
  | hasCreator => 2
  | hasTag => 3
  | hasType => 4
  | isLocatedIn => 5
  | isPartOf => 6
  | likesComment => 7
  | likesPost => 8
  | replyOfComment => 9
  | replyOfPost => 10
  | containerOf => 11
  | hasMember => 12
  | hasModerator => 13
  | hasInterest => 14
  | studyAt => 15
  | workAt => 16
  | isSubclassOf => 17

abbrev EdgePropMap := VertexId × EdgeType × VertexId → Option EdgeProp

/-- The edge maps of an open graph. -/
structure SnbGraph where
  edgeProps : EdgePropMap
  adjacency : Adjacency

/-- One edge with its property, as it is inserted. -/
structure EdgeInsertion where
  src : VertexId
  dst : VertexId
  edgeType : EdgeType
  prop : EdgeProp
  deriving DecidableEq, Repr

/-- The group an edge belongs to. -/
def EdgeInsertion.key (e : EdgeInsertion) : AdjacencyKey := (e.src, e.edgeType)

/-- Put a destination at the end of its list, unless the list has it. -/
def appendNew (dsts : List VertexId) (dst : VertexId) : List VertexId :=
  if dst ∈ dsts then dsts else dsts ++ [dst]

/-- Store a property; the empty one is not stored and leaves an older one. -/
def insertProp (props : EdgePropMap) (src : VertexId) (edgeType : EdgeType) (dst : VertexId)
    (prop : EdgeProp) : EdgePropMap :=
  if prop = .empty then props else Function.update props (src, edgeType, dst) (some prop)

namespace SnbGraph

def insertEdgeByType (g : SnbGraph) (src dst : VertexId) (edgeType : EdgeType) (prop : EdgeProp) :
    SnbGraph where
  adjacency := Function.update g.adjacency (src, edgeType)
    (some (appendNew ((g.adjacency (src, edgeType)).getD []) dst))
  edgeProps := insertProp g.edgeProps src edgeType dst prop

def insertEdgeCached (g : SnbGraph) (src dst : VertexId) (edgeLabel : EdgeLabel) (prop : EdgeProp)
    (includeReverse : Bool) : SnbGraph :=
  let edgeType := edgeLabel.asI32
  let g := g.insertEdgeByType src dst edgeType prop
  if includeReverse then g.insertEdgeByType dst src (-edgeType) prop else g

/-- Apply a sequence of insertions one by one. -/
def insertEdges (g : SnbGraph) (es : List EdgeInsertion) : SnbGraph :=
  es.foldl (fun g e => g.insertEdgeByType e.src e.dst e.edgeType e.prop) g

def outNeighborsCached (g : SnbGraph) (vid : VertexId) (edgeLabel : EdgeLabel) : List VertexId :=
  (g.adjacency (vid, edgeLabel.asI32)).getD []

def inNeighborsCached (g : SnbGraph) (vid : VertexId) (edgeLabel : EdgeLabel) : List VertexId :=
  (g.adjacency (vid, -edgeLabel.asI32)).getD []

def edgePropByType (g : SnbGraph) (src : VertexId) (edgeType : EdgeType) (dst : VertexId) :
    EdgeProp :=
  (g.edgeProps (src, edgeType, dst)).getD .empty

end SnbGraph

/-! ## A re-import of the updates -/

/-- Record a sequence of edges with consecutive timestamps. -/
def AdjacencyBuilder.recordEdges (b : AdjacencyBuilder) (ts : Timestamp) :
    List EdgeInsertion → AdjacencyBuilder
  | [] => b
  | e :: es => (b.recordEdge e.src e.edgeType e.dst ts).recordEdges (ts + 1) es

/-- The adjacency after the updates `es` are imported over `adjacency`, when the engine's newest
timestamp is `maxExistingTs`. -/
def reimport (adjacency : Adjacency) (maxExistingTs : Timestamp) (es : List EdgeInsertion) :
    Adjacency :=
  ((fromAdjacency adjacency maxExistingTs).recordEdges (maxExistingTs + 1) es).build

/-- The destinations inserted under a key, in order. -/
def dstsUnder (key : AdjacencyKey) (es : List EdgeInsertion) : List VertexId :=
  (es.filter fun e => e.key = key).map EdgeInsertion.dst

/-- Each destination once, the one inserted last in front. -/
def latestFirst (dsts : List VertexId) : List VertexId := firstByKey id [] dsts.reverse

/-- The destinations that `existing` does not have, in the order they are met first. -/
def newDsts (existing dsts : List VertexId) : List VertexId := firstByKey id existing dsts

/-! ## The live list -/

@[simp] theorem dstsUnder_nil (key : AdjacencyKey) : dstsUnder key [] = [] := rfl

theorem dstsUnder_cons (key : AdjacencyKey) (e : EdgeInsertion) (es : List EdgeInsertion) :
    dstsUnder key (e :: es) =
      if e.key = key then e.dst :: dstsUnder key es else dstsUnder key es := by
  unfold dstsUnder
  by_cases h : e.key = key <;> simp [h]

/-- Appending one destination after another adds the new ones at the end. -/
theorem foldl_appendNew (existing dsts : List VertexId) :
    dsts.foldl appendNew existing = existing ++ newDsts existing dsts := by
  induction dsts generalizing existing with
  | nil => simp [newDsts]
  | cons d dsts ih =>
      rw [List.foldl_cons, newDsts, firstByKey_cons, appendNew]
      by_cases hd : d ∈ existing
      · rw [if_pos hd, if_pos (show id d ∈ existing from hd), ih, newDsts]
      · rw [if_neg hd, if_neg (show id d ∉ existing from hd), ih, newDsts, List.append_assoc]
        have hseen : firstByKey id (existing ++ [d]) dsts = firstByKey id (id d :: existing) dsts :=
          firstByKey_congr fun a _ => by simp [or_comm]
        rw [hseen]
        rfl

/-- A list of an open graph after a sequence of insertions. -/
theorem getD_adjacency_insertEdges (g : SnbGraph) (es : List EdgeInsertion) (key : AdjacencyKey) :
    ((g.insertEdges es).adjacency key).getD [] =
      (dstsUnder key es).foldl appendNew ((g.adjacency key).getD []) := by
  induction es generalizing g with
  | nil => rfl
  | cons e es ih =>
      have hcons : g.insertEdges (e :: es) =
          (g.insertEdgeByType e.src e.dst e.edgeType e.prop).insertEdges es := rfl
      rw [hcons, ih, dstsUnder_cons]
      by_cases hkey : e.key = key
      · subst hkey
        rw [if_pos rfl, List.foldl_cons]
        simp [SnbGraph.insertEdgeByType, EdgeInsertion.key]
      · rw [if_neg hkey]
        have hne : key ≠ (e.src, e.edgeType) := fun h => hkey h.symm
        simp [SnbGraph.insertEdgeByType, Function.update_of_ne hne]

/-! ## The list of the builder -/

/-- The entries recorded under a key when the timestamps count up from `ts`. -/
def stamped (key : AdjacencyKey) (ts : Timestamp) :
    List EdgeInsertion → List (VertexId × Timestamp)
  | [] => []
  | e :: es => if e.key = key then (e.dst, ts) :: stamped key (ts + 1) es else stamped key (ts + 1) es

theorem map_fst_stamped (key : AdjacencyKey) (ts : Timestamp) (es : List EdgeInsertion) :
    (stamped key ts es).map Prod.fst = dstsUnder key es := by
  induction es generalizing ts with
  | nil => rfl
  | cons e es ih =>
      rw [stamped, dstsUnder_cons]
      split
      · rw [List.map_cons, ih]
      · exact ih (ts + 1)

/-- Entries recorded later are newer. -/
theorem stamped_ascending {ts : Timestamp} {es : List EdgeInsertion}
    (hts : ts.toNat + es.length ≤ 2 ^ 64) (key : AdjacencyKey) :
    (∀ a ∈ stamped key ts es, ts ≤ a.2) ∧
      (stamped key ts es).Pairwise fun a b => a.2 < b.2 := by
  induction es generalizing ts with
  | nil => exact ⟨fun a ha => absurd ha List.not_mem_nil, List.Pairwise.nil⟩
  | cons e es ih =>
      rw [List.length_cons] at hts
      rcases es with _ | ⟨e', es⟩
      · rw [stamped]
        split
        · exact ⟨fun a ha => by simp_all [stamped], List.pairwise_singleton _ _⟩
        · exact ⟨fun a ha => absurd ha List.not_mem_nil, List.Pairwise.nil⟩
      · rw [List.length_cons] at hts
        have hsucc : (ts + 1).toNat = ts.toNat + 1 := by
          rw [UInt64.toNat_add, UInt64.toNat_one, Nat.mod_eq_of_lt (by omega)]
        have hlt : ts < ts + 1 := by rw [UInt64.lt_iff_toNat_lt, hsucc]; omega
        obtain ⟨hge, hpair⟩ := ih (by rw [hsucc, List.length_cons]; omega)
        rw [stamped]
        split
        · refine ⟨fun a ha => ?_, List.Pairwise.cons (fun a ha => hlt.trans_le (hge a ha)) hpair⟩
          rcases List.mem_cons.mp ha with rfl | ha
          · exact le_refl ts
          · exact (hlt.trans_le (hge a ha)).le
        · exact ⟨fun a ha => (hlt.trans_le (hge a ha)).le, hpair⟩

/-- A group after a sequence of records. -/
theorem getD_grouped_recordEdges (b : AdjacencyBuilder) (ts : Timestamp) (es : List EdgeInsertion)
    (key : AdjacencyKey) :
    ((b.recordEdges ts es).grouped key).getD [] =
      (b.grouped key).getD [] ++ stamped key ts es := by
  induction es generalizing b ts with
  | nil => simp [recordEdges, stamped]
  | cons e es ih =>
      rw [recordEdges, ih, stamped]
      by_cases hkey : e.key = key
      · subst hkey
        simp [recordEdge, EdgeInsertion.key]
      · have hne : key ≠ (e.src, e.edgeType) := fun h => hkey h.symm
        simp [hkey, recordEdge, Function.update_of_ne hne]

/-- The existing entries get descending timestamps below the newest one, unless there are more of
them than timestamps. -/
theorem existingEntries_descending {ts : Timestamp} {dsts : List VertexId}
    (hts : dsts.length ≤ ts.toNat + 1) :
    (∀ a ∈ existingEntries ts dsts, a.2 ≤ ts) ∧
      (existingEntries ts dsts).Pairwise fun a b => b.2 < a.2 := by
  have hsub : ∀ i < dsts.length, (saturatingSub ts (UInt64.ofNat i)).toNat = ts.toNat - i := by
    intro i hi
    have hbound : i < 2 ^ 64 := (Nat.le_of_lt_succ (hi.trans_le hts)).trans_lt ts.toNat_lt
    have hnat : (UInt64.ofNat i).toNat = i := UInt64.toNat_ofNat_of_lt' hbound
    have hle : UInt64.ofNat i ≤ ts := by rw [UInt64.le_iff_toNat_le, hnat]; omega
    rw [saturatingSub, if_pos hle, UInt64.toNat_sub_of_le _ _ hle, hnat]
  constructor
  · intro a ha
    obtain ⟨i, hi, rfl⟩ := List.mem_mapIdx.mp ha
    rw [UInt64.le_iff_toNat_le, hsub i hi]
    omega
  · rw [List.pairwise_iff_getElem]
    intro i j hi hj hij
    simp only [existingEntries, List.length_mapIdx] at hi hj
    simp only [existingEntries, List.getElem_mapIdx]
    rw [UInt64.lt_iff_toNat_lt, hsub i hi, hsub j hj]
    omega

theorem map_fst_existingEntries (ts : Timestamp) (dsts : List VertexId) :
    (existingEntries ts dsts).map Prod.fst = dsts :=
  List.ext_getElem (by simp [existingEntries]) fun i _ _ => by simp [existingEntries]

theorem getD_grouped_fromAdjacency (adjacency : Adjacency) (ts : Timestamp) (key : AdjacencyKey) :
    ((fromAdjacency adjacency ts).grouped key).getD [] =
      existingEntries ts ((adjacency key).getD []) := by
  unfold fromAdjacency
  cases h : adjacency key with
  | none => simp [h, existingEntries]
  | some dsts => cases dsts <;> simp [h, existingEntries]

theorem getD_build (b : AdjacencyBuilder) (key : AdjacencyKey) :
    (b.build key).getD [] = buildGroup ((b.grouped key).getD []) := by
  unfold build
  cases b.grouped key <;> rfl

/-- The list a re-import makes: the inserted destinations, the latest first, then the others in
their old order. -/
theorem getD_reimport {adjacency : Adjacency} {ts : Timestamp} {es : List EdgeInsertion}
    {key : AdjacencyKey} (hnodup : ((adjacency key).getD []).Nodup)
    (hlen : ((adjacency key).getD []).length ≤ ts.toNat + 1) (hts : ts.toNat + es.length < 2 ^ 64) :
    (reimport adjacency ts es key).getD [] =
      latestFirst (dstsUnder key es) ++
        ((adjacency key).getD []).filter fun d => d ∉ dstsUnder key es := by
  obtain ⟨hle, hdesc⟩ := existingEntries_descending hlen
  have hsucc : (ts + 1).toNat + es.length ≤ 2 ^ 64 ∧ (es ≠ [] → ts < ts + 1) := by
    cases es with
    | nil => exact ⟨(ts + 1).toNat_lt.le, fun h => absurd rfl h⟩
    | cons e es =>
        rw [List.length_cons] at hts ⊢
        have hnat : (ts + 1).toNat = ts.toNat + 1 := by
          rw [UInt64.toNat_add, UInt64.toNat_one, Nat.mod_eq_of_lt (by omega)]
        exact ⟨by omega, fun _ => by rw [UInt64.lt_iff_toNat_lt, hnat]; omega⟩
  obtain ⟨hge, hasc⟩ := stamped_ascending hsucc.1 key
  -- from the newest entry to the oldest: the recorded ones backwards, then the existing ones
  have hpair : ((stamped key (ts + 1) es).reverse ++
      existingEntries ts ((adjacency key).getD [])).Pairwise fun a b => b.2 < a.2 := by
    refine List.pairwise_append.mpr ⟨List.pairwise_reverse.mpr hasc, hdesc, fun a ha b hb => ?_⟩
    have ha' : a ∈ stamped key (ts + 1) es := List.mem_reverse.mp ha
    have hes : es ≠ [] := by rintro rfl; exact absurd ha' List.not_mem_nil
    exact ((hle b hb).trans_lt (hsucc.2 hes)).trans_le (hge a ha')
  have hperm : ((stamped key (ts + 1) es).reverse ++
      existingEntries ts ((adjacency key).getD [])).Perm
        (existingEntries ts ((adjacency key).getD []) ++ stamped key (ts + 1) es) :=
    List.perm_append_comm.trans ((List.reverse_perm _).append_left _)
  rw [reimport, getD_build, getD_grouped_recordEdges, getD_grouped_fromAdjacency,
    buildGroup_eq_of_perm hperm hpair, List.map_append, List.map_reverse, map_fst_stamped,
    map_fst_existingEntries, firstByKey_append, firstByKey_of_nodup hnodup]
  simp [latestFirst]

/-! ## When the two lists agree -/

theorem mem_latestFirst {d : VertexId} {dsts : List VertexId} : d ∈ latestFirst dsts ↔ d ∈ dsts := by
  simp [latestFirst, mem_firstByKey_id]

/-- A list that goes on from `latestFirst dsts` has, after it, its members that are not in `dsts`. -/
theorem append_eq_iff_prefix {existing dsts : List VertexId} (hnodup : existing.Nodup) :
    existing ++ newDsts existing dsts =
        latestFirst dsts ++ existing.filter (fun d => d ∉ dsts) ↔
      latestFirst dsts <+: existing ++ newDsts existing dsts := by
  constructor
  · intro h
    exact h ▸ List.prefix_append _ _
  · rintro ⟨rest, hrest⟩
    rw [← hrest]
    congr 1
    have hnew : ∀ d ∈ newDsts existing dsts, d ∈ dsts ∧ d ∉ existing := fun d hd =>
      mem_firstByKey_id.mp hd
    have hall : (existing ++ newDsts existing dsts).Nodup :=
      hnodup.append (nodup_firstByKey_id existing dsts) fun d hd hd' => (hnew d hd').2 hd
    rw [← hrest] at hall
    have hdisjoint : ∀ d ∈ rest, d ∉ dsts := fun d hd hmem =>
      (List.nodup_append.mp hall).2.2 d (mem_latestFirst.mpr hmem) d hd rfl
    -- filter both sides of `hrest` by what was not inserted
    have hfilter := congrArg (List.filter fun d => decide (d ∉ dsts)) hrest
    rw [List.filter_append, List.filter_append] at hfilter
    have hleft : (latestFirst dsts).filter (fun d => decide (d ∉ dsts)) = [] :=
      List.filter_eq_nil_iff.mpr fun d hd => by simpa using mem_latestFirst.mp hd
    have hright : (newDsts existing dsts).filter (fun d => decide (d ∉ dsts)) = [] :=
      List.filter_eq_nil_iff.mpr fun d hd => by simpa using (hnew d hd).1
    have hself : rest.filter (fun d => decide (d ∉ dsts)) = rest :=
      List.filter_eq_self.mpr fun d hd => by simpa using hdisjoint d hd
    rw [hleft, hright, hself, List.nil_append, List.append_nil] at hfilter
    exact hfilter

/-- **Updates and their re-import give the same lists iff** under every key the inserted
destinations, the latest insertion first, stand at the front of the old list prolonged by the new
destinations in the order they came. -/
theorem live_eq_reimport_iff (g : SnbGraph) (maxExistingTs : Timestamp) (es : List EdgeInsertion)
    (hnodup : ∀ key, ((g.adjacency key).getD []).Nodup)
    (hlen : ∀ key, ((g.adjacency key).getD []).length ≤ maxExistingTs.toNat)
    (hts : maxExistingTs.toNat + es.length < 2 ^ 64) :
    (∀ key, ((g.insertEdges es).adjacency key).getD [] =
        (reimport g.adjacency maxExistingTs es key).getD []) ↔
      ∀ key, latestFirst (dstsUnder key es) <+:
        (g.adjacency key).getD [] ++ newDsts ((g.adjacency key).getD []) (dstsUnder key es) := by
  refine forall_congr' fun key => ?_
  rw [getD_adjacency_insertEdges, foldl_appendNew,
    getD_reimport (hnodup key) (Nat.le_succ_of_le (hlen key)) hts]
  exact append_eq_iff_prefix (hnodup key)

/-- A graph with one edge, from vertex 1 to vertex 10. -/
def oneEdgeGraph : SnbGraph where
  edgeProps _ := none
  adjacency key := if key = (1, 1) then some [10] else none

/-- Adding the edge that is already there changes neither list. -/
theorem live_eq_reimport_of_known :
    (fun key => ((oneEdgeGraph.insertEdges [⟨1, 10, 1, .empty⟩]).adjacency key).getD []) =
      fun key => (reimport oneEdgeGraph.adjacency 5 [⟨1, 10, 1, .empty⟩] key).getD [] := by
  funext key
  revert key
  refine (live_eq_reimport_iff oneEdgeGraph 5 [⟨1, 10, 1, .empty⟩] (fun key => ?_) (fun key => ?_)
    (by decide)).mpr fun key => ?_
  · by_cases h : key = (1, 1) <;> simp [oneEdgeGraph, h]
  · by_cases h : key = (1, 1) <;> simp [oneEdgeGraph, h]
  · by_cases h : key = (1, 1)
    · subst h
      decide
    · have hne : (⟨1, 10, 1, .empty⟩ : EdgeInsertion).key ≠ key := fun heq => h heq.symm
      simp [dstsUnder_cons, hne, latestFirst]

/-- A new destination goes to the end of the live list and to the front of the re-imported one. -/
theorem live_ne_reimport_of_new :
    ¬ ∀ (g : SnbGraph) (maxExistingTs : Timestamp) (es : List EdgeInsertion),
      (∀ key, ((g.adjacency key).getD []).Nodup) →
      (∀ key, ((g.adjacency key).getD []).length ≤ maxExistingTs.toNat) →
      maxExistingTs.toNat + es.length < 2 ^ 64 →
      ∀ key, ((g.insertEdges es).adjacency key).getD [] =
        (reimport g.adjacency maxExistingTs es key).getD [] := by
  intro h
  have hkey := h oneEdgeGraph 5 [⟨1, 11, 1, .empty⟩]
    (fun key => by by_cases h : key = (1, 1) <;> simp [oneEdgeGraph, h])
    (fun key => by by_cases h : key = (1, 1) <;> simp [oneEdgeGraph, h]) (by decide) (1, 1)
  exact absurd hkey (by decide)

end LsmGraph
