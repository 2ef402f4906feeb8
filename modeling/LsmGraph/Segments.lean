import LsmGraph.Csr.Writer
import LsmGraph.Library.KeyedSort
import Mathlib.Algebra.Order.Floor.Div
import Mathlib.Data.Nat.Init

/-! # Cutting records into segments, and selecting segments

The free functions of `graph.rs` that decide how the records of a flush or a compaction are cut into
segment files (`buildL0FlushSegments`, `splitCompactionSegments`) and which files a partial
compaction reads (`targetMatchesMeta`, `partitionOverlapsTarget`, `rangesOverlap`). Cutting neither
loses nor duplicates a record (`perm_buildL0FlushSegments`, `flatten_splitRangeBoundedSegments`),
no segment is empty, and up to the cap a segment lies in one partition (`l0Segments_partition`). -/

namespace LsmGraph

open KeyedSort

/-! ## Cutting -/

def estimateSegmentBytes (edges : List EdgeRecord) : Nat := edges.length * EdgeRecord.size

/-- The loop of `split_range_bounded_segments` with its variables `current` and `last_src`: a segment
that has reached the target ends where the source changes. -/
def splitRangeLoop (targetEdges : Nat) (current : List EdgeRecord) (lastSrc : Option VertexId) :
    List EdgeRecord → List (List EdgeRecord)
  | [] => if current = [] then [] else [current]
  | edge :: edges =>
      if current ≠ [] ∧ targetEdges ≤ current.length ∧ lastSrc.any (· ≠ edge.src) then
        current :: splitRangeLoop targetEdges [edge] (some edge.src) edges
      else splitRangeLoop targetEdges (current ++ [edge]) (some edge.src) edges

def splitRangeBoundedSegments (edges : List EdgeRecord) (targetSegmentBytes : Nat) :
    List (List EdgeRecord) :=
  splitRangeLoop (max (targetSegmentBytes / EdgeRecord.size) 1) [] none edges

/-- The loop of `merge_segments_to_cap`: every `chunkSize` segments are joined. -/
def mergeSegmentsLoop (chunkSize idx : Nat) (current : List EdgeRecord) :
    List (List EdgeRecord) → List (List EdgeRecord)
  | [] => if current = [] then [] else [current]
  | segment :: segments =>
      if (idx + 1) % chunkSize = 0 then
        (current ++ segment) :: mergeSegmentsLoop chunkSize (idx + 1) [] segments
      else mergeSegmentsLoop chunkSize (idx + 1) (current ++ segment) segments

def mergeSegmentsToCap (segments : List (List EdgeRecord)) (maxSegments : Nat) :
    List (List EdgeRecord) :=
  if segments.length ≤ maxSegments ∨ maxSegments = 0 then segments
  else mergeSegmentsLoop (segments.length ⌈/⌉ maxSegments) 0 [] segments

/-- The records of each source label and edge type, in key order. -/
def exactPartitions (edges : List EdgeRecord) : List ((Int32 ×ₗ EdgeType) × List EdgeRecord) :=
  edges.foldl
    (fun exact edge =>
      extendGroup (toLex (sourceLabelFromVertexId edge.src, edge.edgeType)) [edge] exact) []

/-- Partitions below the minimum are put together by source label under the mixed type. -/
def mergeSmallPartitions (minL0PartitionBytes : Nat)
    (exact : List ((Int32 ×ₗ EdgeType) × List EdgeRecord)) :
    List ((Int32 ×ₗ EdgeType) × List EdgeRecord) :=
  exact.foldl
    (fun partitions group =>
      if estimateSegmentBytes group.2 < minL0PartitionBytes then
        extendGroup (toLex ((ofLex group.1).1, mixedEdgeType)) group.2 partitions
      else extendGroup group.1 group.2 partitions) []

/-- The segments one flush writes. -/
def buildL0FlushSegments (config : LsmGraphConfig) (edges : List EdgeRecord) :
    List (List EdgeRecord) :=
  if !config.graphAwareL0 then [edges]
  else
    let partitions := mergeSmallPartitions config.minL0PartitionBytes (exactPartitions edges)
    let segments := partitions.flatMap fun group =>
      splitRangeBoundedSegments (sortByKey EdgeRecord.versionKey group.2) config.segmentTargetBytes
    if segments = [] then []
    else if segments.length ≤ config.maxL0SegmentsPerFlush then segments
    else mergeSegmentsToCap segments config.maxL0SegmentsPerFlush

/-- The segments one partial compaction writes. -/
def splitCompactionSegments (edges : List EdgeRecord) (targetSegmentBytes : Nat) :
    List (List EdgeRecord) :=
  splitRangeBoundedSegments (sortByKey EdgeRecord.versionKey edges) targetSegmentBytes

/-! ## Selecting -/

structure L0CompactionTarget where
  srcLabel : Int32
  edgeType : Option EdgeType
  minSrc : Option VertexId
  maxSrc : Option VertexId
  deriving DecidableEq, Repr

def partitionOverlapsTarget (m : CsrSegmentMeta) (srcLabel : Int32) (edgeType : Option EdgeType) :
    Bool :=
  let labelMatches :=
    srcLabel == unknownSourceLabel || m.srcLabel == unknownSourceLabel || m.srcLabel == srcLabel
  let edgeMatches :=
    match edgeType with
    | some edgeType => m.edgeTypePartition == mixedEdgeType || m.edgeTypePartition == edgeType
    | none => true
  labelMatches && edgeMatches

def rangesOverlap (leftMin leftMax rightMin rightMax : VertexId) : Bool :=
  leftMin ≤ rightMax && rightMin ≤ leftMax

def targetMatchesMeta (m : CsrSegmentMeta) (target : L0CompactionTarget) : Bool :=
  if !partitionOverlapsTarget m target.srcLabel target.edgeType then false
  else
    match target.minSrc, target.maxSrc with
    | some minSrc, some maxSrc => rangesOverlap m.minSrc m.maxSrc minSrc maxSrc
    | _, _ => true

/-! ## Cutting loses nothing -/

/-- The split loop keeps the records in order. -/
theorem flatten_splitRangeLoop (targetEdges : Nat) (current : List EdgeRecord)
    (lastSrc : Option VertexId) (edges : List EdgeRecord) :
    (splitRangeLoop targetEdges current lastSrc edges).flatten = current ++ edges := by
  induction edges generalizing current lastSrc with
  | nil =>
      rw [splitRangeLoop]
      split
      · rename_i h
        rw [h, List.flatten_nil, List.nil_append]
      · rw [List.flatten_cons, List.flatten_nil]
  | cons edge edges ih =>
      rw [splitRangeLoop]
      split
      · rw [List.flatten_cons, ih, List.singleton_append]
      · rw [ih, List.append_assoc, List.singleton_append]

/-- The split loop makes no empty segment. -/
theorem nil_notMem_splitRangeLoop (targetEdges : Nat) (current : List EdgeRecord)
    (lastSrc : Option VertexId) (edges : List EdgeRecord) :
    [] ∉ splitRangeLoop targetEdges current lastSrc edges := by
  induction edges generalizing current lastSrc with
  | nil =>
      rw [splitRangeLoop]
      split
      · exact List.not_mem_nil
      · rename_i h
        exact fun hmem => h (List.mem_singleton.mp hmem).symm
  | cons edge edges ih =>
      rw [splitRangeLoop]
      split
      · rename_i h
        intro hmem
        rcases List.mem_cons.mp hmem with heq | hmem
        · exact h.1 heq.symm
        · exact ih _ _ hmem
      · exact ih _ _

theorem flatten_splitRangeBoundedSegments (edges : List EdgeRecord) (targetSegmentBytes : Nat) :
    (splitRangeBoundedSegments edges targetSegmentBytes).flatten = edges := by
  rw [splitRangeBoundedSegments, flatten_splitRangeLoop, List.nil_append]

theorem nil_notMem_splitRangeBoundedSegments (edges : List EdgeRecord) (targetSegmentBytes : Nat) :
    [] ∉ splitRangeBoundedSegments edges targetSegmentBytes :=
  nil_notMem_splitRangeLoop _ _ _ _

/-- The merge loop keeps the records in order. -/
theorem flatten_mergeSegmentsLoop (chunkSize idx : Nat) (current : List EdgeRecord)
    (segments : List (List EdgeRecord)) :
    (mergeSegmentsLoop chunkSize idx current segments).flatten = current ++ segments.flatten := by
  induction segments generalizing idx current with
  | nil =>
      rw [mergeSegmentsLoop]
      split
      · rename_i h
        rw [h, List.flatten_nil, List.nil_append]
      · rw [List.flatten_cons, List.flatten_nil]
  | cons segment segments ih =>
      rw [mergeSegmentsLoop]
      split
      · rw [List.flatten_cons, ih, List.nil_append, List.flatten_cons, List.append_assoc]
      · rw [ih, List.flatten_cons, List.append_assoc]

/-- The merge loop makes no empty segment out of nonempty ones. -/
theorem nil_notMem_mergeSegmentsLoop {chunkSize idx : Nat} {current : List EdgeRecord}
    {segments : List (List EdgeRecord)} (h : [] ∉ segments) :
    [] ∉ mergeSegmentsLoop chunkSize idx current segments := by
  induction segments generalizing idx current with
  | nil =>
      rw [mergeSegmentsLoop]
      split
      · exact List.not_mem_nil
      · rename_i hne
        exact fun hmem => hne (List.mem_singleton.mp hmem).symm
  | cons segment segments ih =>
      obtain ⟨hsegment, hsegments⟩ := not_or.mp (List.mem_cons.not.mp h)
      rw [mergeSegmentsLoop]
      split
      · intro hmem
        rcases List.mem_cons.mp hmem with heq | hmem
        · exact hsegment (List.append_eq_nil_iff.mp heq.symm).2.symm
        · exact ih hsegments hmem
      · exact ih hsegments

theorem flatten_mergeSegmentsToCap (segments : List (List EdgeRecord)) (maxSegments : Nat) :
    (mergeSegmentsToCap segments maxSegments).flatten = segments.flatten := by
  rw [mergeSegmentsToCap]
  split
  · rfl
  · rw [flatten_mergeSegmentsLoop, List.nil_append]

theorem nil_notMem_mergeSegmentsToCap {segments : List (List EdgeRecord)} (maxSegments : Nat)
    (h : [] ∉ segments) : [] ∉ mergeSegmentsToCap segments maxSegments := by
  rw [mergeSegmentsToCap]
  split
  · exact h
  · exact nil_notMem_mergeSegmentsLoop h

/-- Grouping permutes the records. -/
theorem perm_exactPartitions (edges : List EdgeRecord) :
    ((exactPartitions edges).flatMap Prod.snd).Perm edges := by
  suffices h : ∀ groups : List ((Int32 ×ₗ EdgeType) × List EdgeRecord),
      ((edges.foldl (fun exact edge =>
        extendGroup (toLex (sourceLabelFromVertexId edge.src, edge.edgeType)) [edge] exact)
          groups).flatMap Prod.snd).Perm (groups.flatMap Prod.snd ++ edges) from
    h []
  induction edges with
  | nil => simp
  | cons edge edges ih =>
      intro groups
      refine (ih _).trans ?_
      refine ((flatMap_extendGroup _ [edge] groups).append_right edges).trans ?_
      rw [List.append_assoc, List.singleton_append]

/-- Putting small partitions together permutes the records. -/
theorem perm_mergeSmallPartitions (minL0PartitionBytes : Nat)
    (exact : List ((Int32 ×ₗ EdgeType) × List EdgeRecord)) :
    ((mergeSmallPartitions minL0PartitionBytes exact).flatMap Prod.snd).Perm
      (exact.flatMap Prod.snd) := by
  suffices h : ∀ partitions : List ((Int32 ×ₗ EdgeType) × List EdgeRecord),
      ((exact.foldl (fun partitions group =>
        if estimateSegmentBytes group.2 < minL0PartitionBytes then
          extendGroup (toLex ((ofLex group.1).1, mixedEdgeType)) group.2 partitions
        else extendGroup group.1 group.2 partitions) partitions).flatMap Prod.snd).Perm
          (partitions.flatMap Prod.snd ++ exact.flatMap Prod.snd) from
    h []
  induction exact with
  | nil => simp
  | cons group exact ih =>
      intro partitions
      refine (ih _).trans ?_
      rw [List.flatMap_cons, ← List.append_assoc]
      refine List.Perm.append_right _ ?_
      by_cases hsmall : estimateSegmentBytes group.2 < minL0PartitionBytes
      · simp only [hsmall, if_true]
        exact flatMap_extendGroup _ group.2 partitions
      · simp only [hsmall, if_false]
        exact flatMap_extendGroup _ group.2 partitions

/-- The segments of a graph-aware flush before they are merged to the cap. -/
def l0Segments (config : LsmGraphConfig) (edges : List EdgeRecord) : List (List EdgeRecord) :=
  (mergeSmallPartitions config.minL0PartitionBytes (exactPartitions edges)).flatMap fun group =>
    splitRangeBoundedSegments (sortByKey EdgeRecord.versionKey group.2) config.segmentTargetBytes

/-- The segments before the cap hold every record once. -/
theorem perm_l0Segments (config : LsmGraphConfig) (edges : List EdgeRecord) :
    (l0Segments config edges).flatten.Perm edges := by
  have hcut : ∀ groups : List ((Int32 ×ₗ EdgeType) × List EdgeRecord),
      ((groups.flatMap fun group => splitRangeBoundedSegments
        (sortByKey EdgeRecord.versionKey group.2) config.segmentTargetBytes).flatten).Perm
          (groups.flatMap Prod.snd) := by
    intro groups
    induction groups with
    | nil => exact List.Perm.refl _
    | cons group groups ih =>
        rw [List.flatMap_cons, List.flatten_append, flatten_splitRangeBoundedSegments,
          List.flatMap_cons]
        exact (perm_sortByKey _ group.2).append ih
  exact (hcut _).trans ((perm_mergeSmallPartitions _ _).trans (perm_exactPartitions edges))

theorem nil_notMem_l0Segments (config : LsmGraphConfig) (edges : List EdgeRecord) :
    [] ∉ l0Segments config edges := by
  intro hmem
  obtain ⟨group, -, hgroup⟩ := List.mem_flatMap.mp hmem
  exact nil_notMem_splitRangeBoundedSegments _ _ hgroup

/-- A graph-aware flush merges its segments to the cap. -/
theorem buildL0FlushSegments_eq {config : LsmGraphConfig} (hgraph : config.graphAwareL0 = true)
    (edges : List EdgeRecord) :
    buildL0FlushSegments config edges =
      mergeSegmentsToCap (l0Segments config edges) config.maxL0SegmentsPerFlush := by
  rw [buildL0FlushSegments, hgraph, Bool.not_true, if_neg Bool.false_ne_true]
  simp only
  rw [← l0Segments]
  by_cases hle : (l0Segments config edges).length ≤ config.maxL0SegmentsPerFlush
  · have hcap : mergeSegmentsToCap (l0Segments config edges) config.maxL0SegmentsPerFlush =
        l0Segments config edges := if_pos (Or.inl hle)
    rw [hcap, if_pos hle]
    split
    · rename_i hnil
      exact hnil.symm
    · rfl
  · rw [if_neg hle, if_neg]
    intro hnil
    rw [hnil] at hle
    exact hle (Nat.zero_le _)

/-- **A flush writes every record once.** -/
theorem perm_buildL0FlushSegments (config : LsmGraphConfig) (edges : List EdgeRecord) :
    (buildL0FlushSegments config edges).flatten.Perm edges := by
  by_cases hgraph : config.graphAwareL0 = true
  · rw [buildL0FlushSegments_eq hgraph, flatten_mergeSegmentsToCap]
    exact perm_l0Segments config edges
  · rw [buildL0FlushSegments, Bool.eq_false_of_not_eq_true hgraph, Bool.not_false, if_pos rfl,
      List.flatten_cons, List.flatten_nil, List.append_nil]

/-- **A flush of something writes no empty segment.** -/
theorem nil_notMem_buildL0FlushSegments (config : LsmGraphConfig) {edges : List EdgeRecord}
    (hne : edges ≠ []) : [] ∉ buildL0FlushSegments config edges := by
  by_cases hgraph : config.graphAwareL0 = true
  · rw [buildL0FlushSegments_eq hgraph]
    exact nil_notMem_mergeSegmentsToCap _ (nil_notMem_l0Segments config edges)
  · rw [buildL0FlushSegments, Bool.eq_false_of_not_eq_true hgraph, Bool.not_false, if_pos rfl]
    exact fun hmem => hne (List.mem_singleton.mp hmem).symm

/-- A compaction writes every merged record once. -/
theorem perm_splitCompactionSegments (edges : List EdgeRecord) (targetSegmentBytes : Nat) :
    (splitCompactionSegments edges targetSegmentBytes).flatten.Perm edges := by
  rw [splitCompactionSegments, flatten_splitRangeBoundedSegments]
  exact perm_sortByKey _ edges

theorem nil_notMem_splitCompactionSegments (edges : List EdgeRecord) (targetSegmentBytes : Nat) :
    [] ∉ splitCompactionSegments edges targetSegmentBytes :=
  nil_notMem_splitRangeBoundedSegments _ _

/-! ## The shape of a flush -/

/-- The partition of a record in one flush: its source label with its edge type, or with the mixed
type when the flush has too few records of that label and type. -/
def l0Partition (minL0PartitionBytes : Nat) (edges : List EdgeRecord) (e : EdgeRecord) :
    Int32 ×ₗ EdgeType :=
  let group := edges.filter fun edge =>
    toLex (sourceLabelFromVertexId edge.src, edge.edgeType) =
      toLex (sourceLabelFromVertexId e.src, e.edgeType)
  toLex (sourceLabelFromVertexId e.src,
    if estimateSegmentBytes group < minL0PartitionBytes then mixedEdgeType else e.edgeType)

theorem groupedBy_exactPartitions (edges : List EdgeRecord) :
    GroupedBy (fun e => toLex (sourceLabelFromVertexId e.src, e.edgeType))
      (exactPartitions edges) := by
  rw [exactPartitions]
  refine List.foldlRecOn edges _ (groupedBy_nil _) fun groups hgroups edge _ => ?_
  refine hgroups.extendGroup fun x hx => ?_
  rw [List.mem_singleton.mp hx]

/-- Every record lies in the group of its partition. -/
theorem groupedBy_mergeSmallPartitions (minL0PartitionBytes : Nat) (edges : List EdgeRecord) :
    GroupedBy (l0Partition minL0PartitionBytes edges)
      (mergeSmallPartitions minL0PartitionBytes (exactPartitions edges)) := by
  have hexact := groupedBy_exactPartitions edges
  rw [mergeSmallPartitions]
  refine List.foldlRecOn _ _ (groupedBy_nil _) fun groups hgroups group hgroup => ?_
  -- a group is measured as its records in the whole flush are
  have hsize : ∀ x ∈ group.2, estimateSegmentBytes (edges.filter fun edge =>
      toLex (sourceLabelFromVertexId edge.src, edge.edgeType) =
        toLex (sourceLabelFromVertexId x.src, x.edgeType)) = estimateSegmentBytes group.2 := by
    intro x hx
    rw [hexact.key group hgroup x hx, estimateSegmentBytes, estimateSegmentBytes,
      ((hexact.perm_filter hgroup).trans ((perm_exactPartitions edges).filter _)).length_eq]
  have hkey : ∀ x ∈ group.2, (sourceLabelFromVertexId x.src, x.edgeType) = ofLex group.1 :=
    fun x hx => congrArg ofLex (hexact.key group hgroup x hx)
  split
  · rename_i hsmall
    refine hgroups.extendGroup fun x hx => ?_
    rw [l0Partition, hsize x hx, if_pos hsmall, ← hkey x hx]
  · rename_i hlarge
    refine hgroups.extendGroup fun x hx => ?_
    rw [l0Partition, hsize x hx, if_neg hlarge, hkey x hx]
    rfl

/-- **The split loop cuts between sources only.** -/
theorem pairwise_splitRangeLoop {targetEdges : Nat} {current : List EdgeRecord}
    {lastSrc : Option VertexId} {edges : List EdgeRecord}
    (hcurrent : ∀ e ∈ current, ∃ src, lastSrc = some src ∧ e.src ≤ src)
    (hlast : ∀ src, lastSrc = some src → ∀ e ∈ edges, src ≤ e.src)
    (hsorted : edges.Pairwise fun a b => a.src ≤ b.src) :
    (splitRangeLoop targetEdges current lastSrc edges).Pairwise fun segment segment' =>
      ∀ e ∈ segment, ∀ e' ∈ segment', e.src < e'.src := by
  induction edges generalizing current lastSrc with
  | nil =>
      rw [splitRangeLoop]
      split
      · exact List.Pairwise.nil
      · exact List.pairwise_singleton _ _
  | cons edge edges ih =>
      obtain ⟨hedge, hedges⟩ := List.pairwise_cons.mp hsorted
      have hedge' : ∀ src, some edge.src = some src → ∀ e ∈ edges, src ≤ e.src := by
        rintro _ ⟨⟩
        exact hedge
      rw [splitRangeLoop]
      split
      · -- the current segment is closed before a new source
        rename_i hcut
        refine List.Pairwise.cons (fun segment hsegment e he e' he' => ?_) (ih ?_ hedge' hedges)
        · obtain ⟨src, rfl, hle⟩ := hcurrent e he
          have hne : src ≠ edge.src := by simpa using hcut.2.2
          have hlt : src < edge.src := lt_of_le_of_ne (hlast src rfl edge List.mem_cons_self) hne
          have hmem := List.mem_flatten_of_mem hsegment he'
          rw [flatten_splitRangeLoop, List.singleton_append] at hmem
          have hge : edge.src ≤ e'.src := by
            rcases List.mem_cons.mp hmem with rfl | hmem
            · exact le_rfl
            · exact hedge e' hmem
          exact (hle.trans_lt hlt).trans_le hge
        · intro e he
          exact ⟨edge.src, rfl, (congrArg EdgeRecord.src (List.mem_singleton.mp he)).le⟩
      · -- the edge joins the current segment, whose sources are at most its own
        refine ih (fun e he => ⟨edge.src, rfl, ?_⟩) hedge' hedges
        rcases List.mem_append.mp he with he | he
        · obtain ⟨src, hsrc, hle⟩ := hcurrent e he
          exact hle.trans (hlast src hsrc edge List.mem_cons_self)
        · exact (congrArg EdgeRecord.src (List.mem_singleton.mp he)).le

theorem pairwise_splitRangeBoundedSegments (edges : List EdgeRecord) (targetSegmentBytes : Nat) :
    (splitRangeBoundedSegments (sortByKey EdgeRecord.versionKey edges) targetSegmentBytes).Pairwise
      fun segment segment' => ∀ e ∈ segment, ∀ e' ∈ segment', e.src < e'.src := by
  refine pairwise_splitRangeLoop (fun e he => absurd he List.not_mem_nil) ?_ ?_
  · intro src hsrc
    cases hsrc
  · exact CsrWriter.pairwise_src_sortByKey edges

/-- Every segment but the last has reached the target. -/
theorem le_length_of_mem_dropLast_splitRangeLoop {targetEdges : Nat} {current : List EdgeRecord}
    {lastSrc : Option VertexId} {edges segment : List EdgeRecord}
    (h : segment ∈ (splitRangeLoop targetEdges current lastSrc edges).dropLast) :
    targetEdges ≤ segment.length := by
  induction edges generalizing current lastSrc with
  | nil =>
      rw [splitRangeLoop] at h
      split at h <;> exact absurd h List.not_mem_nil
  | cons edge edges ih =>
      rw [splitRangeLoop] at h
      split at h
      · rename_i hcut
        cases hrest : splitRangeLoop targetEdges [edge] (some edge.src) edges with
        | nil =>
            rw [hrest] at h
            exact absurd h List.not_mem_nil
        | cons next rest =>
            rw [hrest, List.dropLast_cons_cons, ← hrest] at h
            rcases List.mem_cons.mp h with rfl | h
            · exact hcut.2.1
            · exact ih h
      · exact ih h

/-- The segment would not have reached the target without the edges of its last source. -/
def NeedsLastSource (targetEdges : Nat) (segment : List EdgeRecord) : Prop :=
  ∀ last ∈ segment.getLast?, (segment.filter fun e => e.src ≠ last.src).length < targetEdges

theorem needsLastSource_nil (targetEdges : Nat) : NeedsLastSource targetEdges [] := nofun

/-- **An edge joins a segment** of its own source, or one that has not reached the target. -/
theorem NeedsLastSource.concat {targetEdges : Nat} {current : List EdgeRecord} {edge : EdgeRecord}
    (h : NeedsLastSource targetEdges current)
    (hjoin : (∃ last ∈ current.getLast?, last.src = edge.src) ∨ current.length < targetEdges) :
    NeedsLastSource targetEdges (current ++ [edge]) := by
  intro last hlast
  rw [List.getLast?_concat, Option.mem_some_iff] at hlast
  subst hlast
  have hdrop : ([edge].filter fun e => e.src ≠ edge.src) = [] := by simp
  rw [List.filter_append, hdrop, List.append_nil]
  rcases hjoin with ⟨last, hlast, hsrc⟩ | hshort
  · rw [← hsrc]
    exact h last hlast
  · exact (List.length_filter_le _ _).trans_lt hshort

theorem needsLastSource_of_mem_splitRangeLoop {targetEdges : Nat} {current : List EdgeRecord}
    {lastSrc : Option VertexId} {edges segment : List EdgeRecord} (hpos : 0 < targetEdges)
    (hlast : lastSrc = current.getLast?.map EdgeRecord.src)
    (hcurrent : NeedsLastSource targetEdges current)
    (h : segment ∈ splitRangeLoop targetEdges current lastSrc edges) :
    NeedsLastSource targetEdges segment := by
  induction edges generalizing current lastSrc with
  | nil =>
      rw [splitRangeLoop] at h
      split at h
      · exact absurd h List.not_mem_nil
      · exact List.mem_singleton.mp h ▸ hcurrent
  | cons edge edges ih =>
      rw [splitRangeLoop] at h
      split at h
      · rcases List.mem_cons.mp h with rfl | h
        · exact hcurrent
        · exact ih rfl ((needsLastSource_nil targetEdges).concat (Or.inr hpos)) h
      · rename_i hjoin
        refine ih (by rw [List.getLast?_concat, Option.map_some]) (hcurrent.concat ?_) h
        -- the loop would have cut before an edge of another source
        by_cases hshort : current.length < targetEdges
        · exact Or.inr hshort
        · have hne : current ≠ [] := by
            rintro rfl
            exact hshort hpos
          obtain ⟨last, hgetLast⟩ := Option.ne_none_iff_exists'.mp
            (List.getLast?_eq_none_iff.not.mpr hne)
          refine Or.inl ⟨last, hgetLast, ?_⟩
          by_contra hsrc
          refine hjoin ⟨hne, not_lt.mp hshort, ?_⟩
          rw [hlast, hgetLast]
          exact decide_eq_true hsrc

/-- **Splitting respects the sources.** A list sorted by source is cut into non-empty segments of
ascending, disjoint source ranges; all but the last reach the target, and none reaches it without the
edges of its last source. -/
theorem splitRangeBounded_chunks {edges : List EdgeRecord} (targetSegmentBytes : Nat)
    (hsorted : edges.Pairwise fun a b => a.src ≤ b.src) :
    let segments := splitRangeBoundedSegments edges targetSegmentBytes
    let targetEdges := max 1 (targetSegmentBytes / EdgeRecord.size)
    segments.flatten = edges ∧ [] ∉ segments ∧
      (segments.Pairwise fun segment segment' => ∀ e ∈ segment, ∀ e' ∈ segment', e.src < e'.src) ∧
      (∀ segment ∈ segments.dropLast, targetEdges ≤ segment.length) ∧
      ∀ segment ∈ segments, ∀ last ∈ segment.getLast?,
        let rest := segment.filter fun e => e.src ≠ last.src
        rest.length < targetEdges ∨ rest = [] := by
  intro segments targetEdges
  have htarget : max (targetSegmentBytes / EdgeRecord.size) 1 = targetEdges := Nat.max_comm _ _
  have hsegments : segments = splitRangeLoop targetEdges [] none edges := by
    rw [← htarget]
    rfl
  refine ⟨flatten_splitRangeBoundedSegments edges _, nil_notMem_splitRangeBoundedSegments edges _,
    ?_, fun segment h => ?_, fun segment h last hlast => Or.inl ?_⟩
  · rw [hsegments]
    exact pairwise_splitRangeLoop (fun e he => absurd he List.not_mem_nil) (fun src => nofun) hsorted
  · rw [hsegments] at h
    exact le_length_of_mem_dropLast_splitRangeLoop h
  · rw [hsegments] at h
    exact needsLastSource_of_mem_splitRangeLoop (Nat.le_max_left 1 _) rfl
      (needsLastSource_nil targetEdges) h last hlast

/-- Three edges of one source and one of another, with a target of two edges. -/
theorem splitRangeBounded_chunks_two :
    let edges := [EdgeRecord.insert 1 2 1 1, .insert 1 3 1 2, .insert 1 4 1 3, .insert 2 3 1 4]
    (splitRangeBoundedSegments edges 64).flatten = edges ∧
      (∀ segment ∈ (splitRangeBoundedSegments edges 64).dropLast, 2 ≤ segment.length) := by
  intro edges
  have h := @splitRangeBounded_chunks edges 64 (by decide)
  exact ⟨h.1, h.2.2.2.1⟩

/-- A record of a segment comes from the group the segment was cut from. -/
theorem mem_of_mem_splitRangeBoundedSegments {edges segment : List EdgeRecord}
    {targetSegmentBytes : Nat} {e : EdgeRecord} (he : e ∈ segment)
    (hsegment : segment ∈ splitRangeBoundedSegments (sortByKey EdgeRecord.versionKey edges)
      targetSegmentBytes) : e ∈ edges := by
  have hmem := List.mem_flatten_of_mem hsegment he
  rwa [flatten_splitRangeBoundedSegments, mem_sortByKey] at hmem

/-- **Before the cap, a segment lies in one partition**, and no source of a partition is split. -/
theorem l0Segments_partition (config : LsmGraphConfig) (edges : List EdgeRecord) :
    (∀ segment ∈ l0Segments config edges, ∃ partition, ∀ e ∈ segment,
      l0Partition config.minL0PartitionBytes edges e = partition) ∧
      (l0Segments config edges).Pairwise fun segment segment' => ∀ e ∈ segment, ∀ e' ∈ segment',
        e.src = e'.src → l0Partition config.minL0PartitionBytes edges e ≠
          l0Partition config.minL0PartitionBytes edges e' := by
  have hgrouped := groupedBy_mergeSmallPartitions config.minL0PartitionBytes edges
  constructor
  · intro segment hsegment
    obtain ⟨group, hgroup, hsegment⟩ := List.mem_flatMap.mp hsegment
    exact ⟨group.1, fun e he =>
      hgrouped.key group hgroup e (mem_of_mem_splitRangeBoundedSegments he hsegment)⟩
  · refine List.pairwise_flatMap.mpr ⟨fun group hgroup => ?_, ?_⟩
    · refine (pairwise_splitRangeBoundedSegments group.2 _).imp fun hlt e he e' he' heq => ?_
      exact absurd heq (hlt e he e' he').ne
    · refine hgrouped.ascending.imp_of_mem fun hgroup hgroup' hlt => ?_
      intro segment hsegment segment' hsegment' e he e' he' _
      rw [hgrouped.key _ hgroup e (mem_of_mem_splitRangeBoundedSegments he hsegment),
        hgrouped.key _ hgroup' e' (mem_of_mem_splitRangeBoundedSegments he' hsegment')]
      exact hlt.ne

/-- The merge loop makes one segment of every full chunk, and one of the rest. -/
theorem length_mergeSegmentsLoop {chunkSize idx : Nat} {current : List EdgeRecord}
    {segments : List (List EdgeRecord)} (hchunk : 0 < chunkSize)
    (hcurrent : idx % chunkSize = 0 → current = []) :
    (mergeSegmentsLoop chunkSize idx current segments).length + idx / chunkSize ≤
      (idx + segments.length) ⌈/⌉ chunkSize := by
  induction segments generalizing idx current with
  | nil =>
      rw [mergeSegmentsLoop, List.length_nil, Nat.add_zero, Nat.ceilDiv_eq_add_pred_div]
      split
      · rw [List.length_nil, Nat.zero_add]
        exact Nat.div_le_div_right (by omega)
      · -- the last chunk is a part of one, and is rounded up
        rename_i hne
        have hmod : 0 < idx % chunkSize := Nat.pos_of_ne_zero fun h => hne (hcurrent h)
        rw [List.length_singleton, Nat.le_div_iff_mul_le hchunk, Nat.add_mul, Nat.one_mul,
          Nat.div_mul_self_eq_mod_sub_self]
        have := Nat.mod_le idx chunkSize
        omega
  | cons segment segments ih =>
      have hlength : idx + (segment :: segments).length = (idx + 1) + segments.length := by
        rw [List.length_cons, Nat.add_right_comm, Nat.add_assoc]
      rw [mergeSegmentsLoop, hlength]
      split
      · -- a chunk is complete, and the next one starts empty
        rename_i hfull
        have hdiv : (idx + 1) / chunkSize = idx / chunkSize + 1 := by
          rw [Nat.succ_div, if_pos (Nat.dvd_of_mod_eq_zero hfull)]
        have hrest := @ih (idx + 1) [] fun _ => rfl
        rw [hdiv] at hrest
        rw [List.length_cons]
        omega
      · rename_i hpart
        have hdiv : (idx + 1) / chunkSize = idx / chunkSize := by
          rw [Nat.succ_div, if_neg fun h => hpart (Nat.mod_eq_zero_of_dvd h), Nat.add_zero]
        have hrest := @ih (idx + 1) (current ++ segment) fun h => absurd h hpart
        rwa [hdiv] at hrest

/-- **The cap is kept.** -/
theorem length_mergeSegmentsToCap {segments : List (List EdgeRecord)} {maxSegments : Nat}
    (hmax : 1 ≤ maxSegments) : (mergeSegmentsToCap segments maxSegments).length ≤ maxSegments := by
  rw [mergeSegmentsToCap]
  split
  · rename_i h
    exact h.resolve_right (by omega)
  · rename_i h
    have hcover : segments.length ≤ maxSegments * (segments.length ⌈/⌉ maxSegments) :=
      (ceilDiv_le_iff_le_mul hmax).mp le_rfl
    have hchunk : 0 < segments.length ⌈/⌉ maxSegments := by
      refine Nat.pos_of_ne_zero fun hzero => h (Or.inl ?_)
      rw [hzero, Nat.mul_zero] at hcover
      exact hcover.trans (Nat.zero_le _)
    have hlength := @length_mergeSegmentsLoop _ 0 [] segments hchunk fun _ => rfl
    rw [Nat.zero_div, Nat.add_zero, Nat.zero_add] at hlength
    refine hlength.trans ((ceilDiv_le_iff_le_mul hchunk).mpr ?_)
    rwa [Nat.mul_comm]

/-- **A graph-aware flush loses nothing and keeps its cap**; unless the cap joins segments, each of
them lies in one partition and holds every record its sources have there. -/
theorem graphAwareFlush_segments (config : LsmGraphConfig) (edges : List EdgeRecord)
    (hgraph : config.graphAwareL0 = true) :
    let segments := buildL0FlushSegments config edges
    segments.flatten.Perm edges ∧ [] ∉ segments ∧
      (1 ≤ config.maxL0SegmentsPerFlush → segments.length ≤ config.maxL0SegmentsPerFlush) ∧
      ((l0Segments config edges).length ≤ config.maxL0SegmentsPerFlush ∨
          config.maxL0SegmentsPerFlush = 0 →
        (∀ segment ∈ segments, ∃ partition, ∀ e ∈ segment,
          l0Partition config.minL0PartitionBytes edges e = partition) ∧
        segments.Pairwise fun segment segment' => ∀ e ∈ segment, ∀ e' ∈ segment',
          e.src = e'.src → l0Partition config.minL0PartitionBytes edges e ≠
            l0Partition config.minL0PartitionBytes edges e') := by
  intro segments
  have hsegments : segments = mergeSegmentsToCap (l0Segments config edges)
      config.maxL0SegmentsPerFlush := buildL0FlushSegments_eq hgraph edges
  refine ⟨perm_buildL0FlushSegments config edges, ?_, fun hmax => ?_, fun huncapped => ?_⟩
  · rw [hsegments]
    exact nil_notMem_mergeSegmentsToCap _ (nil_notMem_l0Segments config edges)
  · rw [hsegments]
    exact length_mergeSegmentsToCap hmax
  · have huncut : segments = l0Segments config edges := hsegments.trans (if_pos huncapped)
    rw [huncut]
    exact l0Segments_partition config edges

/-- Records of two source labels, cut apart and joined again for a cap of one segment. -/
theorem graphAwareFlush_segments_capped :
    let config : LsmGraphConfig := { graphAwareL0 := true, maxL0SegmentsPerFlush := 1 }
    let edges := [EdgeRecord.insert 0x0100000000000000 2 1 1, EdgeRecord.insert 0x0200000000000000 3 1 2]
    (l0Segments config edges).length = 2 ∧ (buildL0FlushSegments config edges).length ≤ 1 := by
  intro config edges
  exact ⟨by decide +kernel, (graphAwareFlush_segments config edges rfl).2.2.1 le_rfl⟩

end LsmGraph
