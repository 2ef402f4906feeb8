import LsmGraph.Session

/-! # Counting the probes of `L0`

The counters of `metrics.rs` that a point lookup updates while it filters the files of `L0`, over all
files (`Metrics`) and by partition (`L0PartitionMetric`). The functions of `Counted` are the reads of
`Read` with their counters, and read the same (`erases_getNeighborsTypedInternal`). The engine
classifies each candidate once, but the reader counts again: a file whose metadata was not cached has
passed, and when the filter that is then loaded denies the source, the reader counts the file as
filtered as well. So the counters are off by these cold denials in every state of every run
(`Balanced`), and add up iff there was none (`counters_conserved_iff`). -/

namespace LsmGraph

open CsrReader ErrorState Transition

/-! ## Counters -/

structure L0PartitionKey where
  srcLabel : Int32
  edgeType : EdgeType
  rangeStart : VertexId
  rangeEnd : VertexId
  deriving DecidableEq, Repr

/-- What one probe adds to the counters of its partition. -/
structure L0PartitionProbe where
  candidateSegments : Nat := 0
  rangeFilteredSegments : Nat := 0
  bloomFilteredSegments : Nat := 0
  filterPassedSegments : Nat := 0
  matchedSegments : Nat := 0
  offsetCacheHits : Nat := 0
  offsetCacheMisses : Nat := 0
  bodyReads : Nat := 0
  bloomFalsePositiveProbes : Nat := 0
  deriving DecidableEq, Repr

/-- The counters of a partition. -/
structure L0PartitionMetric extends L0PartitionProbe where
  queryCount : Nat := 0
  deriving DecidableEq, Repr

/-- The counters that a point lookup updates; the partitions are the entries of a hash map. -/
structure Metrics where
  candidateL0Segments : Nat := 0
  rangeFilteredSegments : Nat := 0
  bloomFilteredSegments : Nat := 0
  filterPassedSegments : Nat := 0
  matchedL0Segments : Nat := 0
  l0BloomFalsePositiveProbes : Nat := 0
  l0PartitionMetrics : List (L0PartitionKey × L0PartitionMetric) := []
  deriving DecidableEq, Repr

/-- `partitions.entry(key).or_default()`, updated by `f`. -/
def updateEntry (key : L0PartitionKey) (f : L0PartitionMetric → L0PartitionMetric) :
    List (L0PartitionKey × L0PartitionMetric) → List (L0PartitionKey × L0PartitionMetric)
  | [] => [(key, f {})]
  | (key', metric) :: partitions =>
      if key' = key then (key', f metric) :: partitions
      else (key', metric) :: updateEntry key f partitions

def L0PartitionMetric.record (metric : L0PartitionMetric) (probe : L0PartitionProbe) :
    L0PartitionMetric :=
  { metric with
    candidateSegments := metric.candidateSegments + probe.candidateSegments
    rangeFilteredSegments := metric.rangeFilteredSegments + probe.rangeFilteredSegments
    bloomFilteredSegments := metric.bloomFilteredSegments + probe.bloomFilteredSegments
    filterPassedSegments := metric.filterPassedSegments + probe.filterPassedSegments
    matchedSegments := metric.matchedSegments + probe.matchedSegments
    offsetCacheHits := metric.offsetCacheHits + probe.offsetCacheHits
    offsetCacheMisses := metric.offsetCacheMisses + probe.offsetCacheMisses
    bodyReads := metric.bodyReads + probe.bodyReads
    bloomFalsePositiveProbes := metric.bloomFalsePositiveProbes + probe.bloomFalsePositiveProbes }

namespace Metrics

def recordL0PartitionQuery (key : L0PartitionKey) (μ : Metrics) : Metrics :=
  { μ with
    l0PartitionMetrics := updateEntry key
      (fun metric => { metric with queryCount := metric.queryCount + 1 }) μ.l0PartitionMetrics }

def recordL0PartitionProbe (key : L0PartitionKey) (probe : L0PartitionProbe) (μ : Metrics) :
    Metrics :=
  { μ with l0PartitionMetrics := updateEntry key (·.record probe) μ.l0PartitionMetrics }

/-- A counter summed over the partitions. -/
def partitionSum (μ : Metrics) (counter : L0PartitionProbe → Nat) : Nat :=
  (μ.l0PartitionMetrics.map fun entry => counter entry.2.toL0PartitionProbe).sum

end Metrics

/-- `l0_partition_key`, for a bucket size of the configuration. -/
def l0PartitionKey (l0RaRangeBucketSize : UInt64) (src : VertexId) (edgeType : Option EdgeType)
    (m : CsrSegmentMeta) : L0PartitionKey :=
  let label := sourceLabelFromVertexId src
  let bucketSize := max l0RaRangeBucketSize 1
  let rangeStart := src / bucketSize * bucketSize
  { srcLabel := if label = unknownSourceLabel then m.srcLabel else label
    edgeType := edgeType.getD m.edgeTypePartition
    rangeStart
    rangeEnd :=
      if rangeStart.toNat + (bucketSize - 1).toNat < 2 ^ 64 then rangeStart + (bucketSize - 1)
      else UInt64.ofNat (2 ^ 64 - 1) }

/-! ## Counted reads -/

/-- What a counted read updates. -/
structure Probed where
  cache : CsrMetadataCache
  metrics : Metrics

/-- A read that counts. -/
abbrev ProbeM := EStateM EngineError Probed

/-- Update the counters. -/
def count (f : Metrics → Metrics) : ProbeM Unit :=
  modify fun s => { s with metrics := f s.metrics }

/-- A read that counts nothing. -/
def uncounted {α : Type} (x : CsrM α) : ProbeM α := fun s =>
  match x s.cache with
  | .ok a cache => .ok a { s with cache }
  | .error e cache => .error e { s with cache }

namespace Counted

variable (files : StoreFiles) (heap : MemGraphId → MemGraph) (l0RaRangeBucketSize : UInt64)

/-- `CsrReader::get_neighbors`. -/
def getNeighbors (m : CsrSegmentMeta) (src : VertexId) : ProbeM (List EdgeRecord) :=
  if src < m.minSrc ∨ m.maxSrc < src ∨ m.edgeCount = 0 then pure []
  else do
    let metadata ← uncounted (metadataFor files m)
    match findOffsetInOffsets metadata.offsets src with
    | none =>
        if metadata.mayContainSrc src then
          count fun μ => { μ with l0BloomFalsePositiveProbes := μ.l0BloomFalsePositiveProbes + 1 }
        else count fun μ => { μ with bloomFilteredSegments := μ.bloomFilteredSegments + 1 }
        pure []
    | some offset =>
        match readBodies files m offset with
        | .error e => throw e
        | .ok bodies => pure (bodies.map fun body => body.toEdgeRecord src)

/-- The loop over `L0` in `get_neighbors_typed_internal`. -/
def l0Neighbors (src : VertexId) (edgeType : Option EdgeType) :
    List L0PartitionKey → List CsrSegmentMeta → ProbeM (List EdgeRecord)
  | _, [] => pure []
  | touchedPartitions, m :: ms => do
      if !m.mayContainPartition src edgeType then l0Neighbors src edgeType touchedPartitions ms
      else
        let partitionKey := l0PartitionKey l0RaRangeBucketSize src edgeType m
        count fun μ =>
          if partitionKey ∈ touchedPartitions then μ else μ.recordL0PartitionQuery partitionKey
        let touchedPartitions := partitionKey :: touchedPartitions
        count fun μ => { μ with candidateL0Segments := μ.candidateL0Segments + 1 }
        if src < m.minSrc ∨ m.maxSrc < src then
          count fun μ => { μ with rangeFilteredSegments := μ.rangeFilteredSegments + 1 }
          count (Metrics.recordL0PartitionProbe partitionKey
            { candidateSegments := 1, rangeFilteredSegments := 1 })
          l0Neighbors src edgeType touchedPartitions ms
        else
          let cachedMayContain ← uncounted (cachedMayContainSrc m src)
          if cachedMayContain = some false then
            count fun μ => { μ with bloomFilteredSegments := μ.bloomFilteredSegments + 1 }
            count (Metrics.recordL0PartitionProbe partitionKey
              { candidateSegments := 1, bloomFilteredSegments := 1, offsetCacheHits := 1 })
            l0Neighbors src edgeType touchedPartitions ms
          else
            count fun μ => { μ with filterPassedSegments := μ.filterPassedSegments + 1 }
            let edges ← getNeighbors files m src
            count fun μ =>
              if edges = [] then μ else { μ with matchedL0Segments := μ.matchedL0Segments + 1 }
            count (Metrics.recordL0PartitionProbe partitionKey
              { candidateSegments := 1
                filterPassedSegments := 1
                matchedSegments := if edges = [] then 0 else 1
                offsetCacheHits := if cachedMayContain = some true then 1 else 0
                offsetCacheMisses := if cachedMayContain = none then 1 else 0
                bodyReads := if edges = [] then 0 else 1
                bloomFalsePositiveProbes :=
                  if edges = [] ∧ cachedMayContain = some true then 1 else 0 })
            let updates ← l0Neighbors src edgeType touchedPartitions ms
            pure (edges ++ updates)

/-- The loop over the files the index lists. -/
def indexNeighbors (src : VertexId) : List CsrSegmentMeta → ProbeM (List EdgeRecord)
  | [] => pure []
  | m :: ms => do
      let edges ← getNeighbors files m src
      let updates ← indexNeighbors src ms
      pure (edges ++ updates)

/-- `get_neighbors_typed_internal` on a pinned version and the index found installed. -/
def getNeighborsTypedInternal (v : Version) (index : MultiLevelIndex) (src : VertexId)
    (edgeType : Option EdgeType) (snapshot : SnapshotId) : ProbeM (List EdgeRecord) := do
  let updates := memgraphEdgesForSrc heap v src
  let l0 ← l0Neighbors files l0RaRangeBucketSize src edgeType [] (v.level L0.toNat)
  let upper ← indexNeighbors files src (index src)
  let updates := updates ++ l0 ++ upper
  pure (mergeVisible (retainType edgeType updates) snapshot)

end Counted

/-! ## The counters change no read -/

/-- The counted read does what the other one does to the cache, and returns the same. -/
def Erases {α : Type} (x : ProbeM α) (y : CsrM α) : Prop :=
  ∀ s, (∃ a s', x s = .ok a s' ∧ y s.cache = .ok a s'.cache) ∨
    ∃ e s', x s = .error e s' ∧ y s.cache = .error e s'.cache

theorem erases_pure {α : Type} (a : α) : Erases (pure a) (pure a) :=
  fun s => Or.inl ⟨a, s, rfl, rfl⟩

theorem erases_throw {α : Type} (e : EngineError) :
    Erases (throw e : ProbeM α) (throw e : CsrM α) :=
  fun s => Or.inr ⟨e, s, rfl, rfl⟩

theorem erases_uncounted {α : Type} (x : CsrM α) : Erases (uncounted x) x := by
  intro s
  cases h : x s.cache with
  | ok a cache => exact Or.inl ⟨a, { s with cache }, by rw [uncounted, h], rfl⟩
  | error e cache => exact Or.inr ⟨e, { s with cache }, by rw [uncounted, h], rfl⟩

theorem Erases.bind {α β : Type} {x : ProbeM α} {y : CsrM α} {f : α → ProbeM β} {g : α → CsrM β}
    (h : Erases x y) (hfg : ∀ a, Erases (f a) (g a)) : Erases (x >>= f) (y >>= g) := by
  intro s
  rcases h s with ⟨a, s', hx, hy⟩ | ⟨e, s', hx, hy⟩
  · rw [bind_of_ok hx, bind_of_ok hy]
    exact hfg a s'
  · exact Or.inr ⟨e, s', bind_of_error hx, bind_of_error hy⟩

/-- A counter in front of a read is no part of it. -/
theorem Erases.count_bind {α : Type} {x : ProbeM α} {y : CsrM α} (h : Erases x y)
    (f : Metrics → Metrics) : Erases (count f >>= fun _ => x) y := by
  intro s
  exact h { s with metrics := f s.metrics }

section Erasure

variable (files : StoreFiles) (heap : MemGraphId → MemGraph) (l0RaRangeBucketSize : UInt64)

theorem erases_getNeighbors (m : CsrSegmentMeta) (src : VertexId) :
    Erases (Counted.getNeighbors files m src) (CsrReader.getNeighbors files m src) := by
  rw [Counted.getNeighbors, CsrReader.getNeighbors]
  split
  · exact erases_pure []
  · refine (erases_uncounted _).bind fun metadata => ?_
    cases findOffsetInOffsets metadata.offsets src with
    | none =>
        simp only
        split
        · exact (erases_pure []).count_bind _
        · exact (erases_pure []).count_bind _
    | some offset =>
        simp only
        cases readBodies files m offset with
        | error e => exact erases_throw e
        | ok bodies => exact erases_pure _

theorem erases_l0Neighbors (src : VertexId) (edgeType : Option EdgeType)
    (touched : List L0PartitionKey) (ms : List CsrSegmentMeta) :
    Erases (Counted.l0Neighbors files l0RaRangeBucketSize src edgeType touched ms)
      (LsmGraph.l0Neighbors files src edgeType ms) := by
  induction ms generalizing touched with
  | nil => exact erases_pure []
  | cons m ms ih =>
      rw [Counted.l0Neighbors, LsmGraph.l0Neighbors]
      by_cases hpartition : (!m.mayContainPartition src edgeType) = true
      · rw [if_pos hpartition, if_pos hpartition]
        exact ih touched
      · rw [if_neg hpartition, if_neg hpartition]
        refine Erases.count_bind (Erases.count_bind ?_ _) _
        by_cases hrange : src < m.minSrc ∨ m.maxSrc < src
        · rw [if_pos hrange, if_pos hrange]
          exact Erases.count_bind (Erases.count_bind (ih _) _) _
        · rw [if_neg hrange, if_neg hrange]
          refine (erases_uncounted _).bind fun cachedMayContain => ?_
          by_cases hdenied : cachedMayContain = some false
          · rw [if_pos hdenied, if_pos hdenied]
            exact Erases.count_bind (Erases.count_bind (ih _) _) _
          · rw [if_neg hdenied, if_neg hdenied]
            refine Erases.count_bind ((erases_getNeighbors files m src).bind fun edges => ?_) _
            refine Erases.count_bind (Erases.count_bind ?_ _) _
            exact (ih _).bind fun updates => erases_pure _

theorem erases_indexNeighbors (src : VertexId) (ms : List CsrSegmentMeta) :
    Erases (Counted.indexNeighbors files src ms) (LsmGraph.indexNeighbors files src ms) := by
  induction ms with
  | nil => exact erases_pure []
  | cons m ms ih =>
      exact (erases_getNeighbors files m src).bind fun _ => ih.bind fun _ => erases_pure _

/-- **A counted lookup is the lookup.** -/
theorem erases_getNeighborsTypedInternal (v : Version) (index : MultiLevelIndex) (src : VertexId)
    (edgeType : Option EdgeType) (s : SnapshotId) :
    Erases (Counted.getNeighborsTypedInternal files heap l0RaRangeBucketSize v index src edgeType s)
      (LsmGraph.getNeighborsTypedInternal files heap v index src edgeType s) :=
  (erases_l0Neighbors files l0RaRangeBucketSize src edgeType [] _).bind fun _ =>
    (erases_indexNeighbors files src _).bind fun _ => erases_pure _

end Erasure

/-! ## The sums -/

namespace Metrics

theorem partitionSum_updateEntry {counter : L0PartitionProbe → Nat} {d : Nat}
    {f : L0PartitionMetric → L0PartitionMetric} (key : L0PartitionKey)
    (hf : ∀ metric, counter (f metric).toL0PartitionProbe =
      counter metric.toL0PartitionProbe + d) (hzero : counter {} = 0)
    (partitions : List (L0PartitionKey × L0PartitionMetric)) :
    ((updateEntry key f partitions).map fun entry => counter entry.2.toL0PartitionProbe).sum =
      (partitions.map fun entry => counter entry.2.toL0PartitionProbe).sum + d := by
  have hnew : counter (f {}).toL0PartitionProbe = d := by
    rw [hf]
    change counter {} + d = d
    rw [hzero, Nat.zero_add]
  induction partitions with
  | nil =>
      simp only [updateEntry, List.map_cons, List.map_nil, List.sum_cons, List.sum_nil, hnew]
      omega
  | cons entry partitions ih =>
      obtain ⟨key', metric⟩ := entry
      rw [updateEntry]
      split
      · simp only [List.map_cons, List.sum_cons, hf]
        omega
      · simp only [List.map_cons, List.sum_cons, ih]
        omega

/-- Every candidate is filtered or passes, and a global counter is the sum of the counters of the
partitions. -/
structure Conserved (μ : Metrics) : Prop where
  classified : μ.candidateL0Segments =
    μ.rangeFilteredSegments + μ.bloomFilteredSegments + μ.filterPassedSegments
  candidate : μ.candidateL0Segments = μ.partitionSum (·.candidateSegments)
  range : μ.rangeFilteredSegments = μ.partitionSum (·.rangeFilteredSegments)
  bloom : μ.bloomFilteredSegments = μ.partitionSum (·.bloomFilteredSegments)
  passed : μ.filterPassedSegments = μ.partitionSum (·.filterPassedSegments)
  matched : μ.matchedL0Segments ≤ μ.filterPassedSegments

/-- All of this, except that `extra` files were counted as filtered once too often. -/
structure Balanced (μ : Metrics) (extra : Nat) : Prop where
  classified : μ.candidateL0Segments + extra =
    μ.rangeFilteredSegments + μ.bloomFilteredSegments + μ.filterPassedSegments
  candidate : μ.candidateL0Segments = μ.partitionSum (·.candidateSegments)
  range : μ.rangeFilteredSegments = μ.partitionSum (·.rangeFilteredSegments)
  bloom : μ.bloomFilteredSegments = μ.partitionSum (·.bloomFilteredSegments) + extra
  passed : μ.filterPassedSegments = μ.partitionSum (·.filterPassedSegments)
  matched : μ.matchedL0Segments ≤ μ.filterPassedSegments

theorem Conserved.balanced {μ : Metrics} (h : μ.Conserved) : μ.Balanced 0 :=
  ⟨h.classified, h.candidate, h.range, h.bloom, h.passed, h.matched⟩

/-- **Counters that are off by `extra` are right iff `extra` is zero.** -/
theorem Balanced.conserved_iff {μ : Metrics} {extra : Nat} (h : μ.Balanced extra) :
    μ.Conserved ↔ extra = 0 := by
  constructor
  · intro hμ
    have := hμ.bloom.symm.trans h.bloom
    omega
  · rintro rfl
    exact ⟨h.classified, h.candidate, h.range, h.bloom, h.passed, h.matched⟩

/-- The counters of `μ'` are those of `μ`, up to `denied` more filtered files and counters that take
no part in the sums. -/
structure Adds (μ μ' : Metrics) (denied : Nat) : Prop where
  candidate : μ'.candidateL0Segments = μ.candidateL0Segments
  range : μ'.rangeFilteredSegments = μ.rangeFilteredSegments
  bloom : μ'.bloomFilteredSegments = μ.bloomFilteredSegments + denied
  passed : μ'.filterPassedSegments = μ.filterPassedSegments
  matched : μ'.matchedL0Segments = μ.matchedL0Segments
  partitions : μ'.l0PartitionMetrics = μ.l0PartitionMetrics

theorem Balanced.adds {μ μ' : Metrics} {extra denied : Nat} (h : μ.Balanced extra)
    (hadds : Adds μ μ' denied) : μ'.Balanced (extra + denied) := by
  have hsum : ∀ counter, μ'.partitionSum counter = μ.partitionSum counter := by
    intro counter
    rw [partitionSum, partitionSum, hadds.partitions]
  obtain ⟨h₁, h₂, h₃, h₄, h₅, h₆⟩ := h
  constructor
  · rw [hadds.candidate, hadds.range, hadds.bloom, hadds.passed]
    omega
  · rw [hadds.candidate, hsum, h₂]
  · rw [hadds.range, hsum, h₃]
  · rw [hadds.bloom, hsum]
    omega
  · rw [hadds.passed, hsum, h₅]
  · rw [hadds.matched, hadds.passed]
    exact h₆

/-- Recording the query of a partition adds nothing to the sums. -/
theorem Balanced.touch {μ : Metrics} {extra : Nat} (h : μ.Balanced extra) (key : L0PartitionKey)
    (touched : List L0PartitionKey) :
    (if key ∈ touched then μ else μ.recordL0PartitionQuery key).Balanced extra := by
  have hsum : ∀ counter : L0PartitionProbe → Nat, counter {} = 0 →
      (μ.recordL0PartitionQuery key).partitionSum counter = μ.partitionSum counter :=
    fun counter hzero => @partitionSum_updateEntry counter 0
      (fun metric => { metric with queryCount := metric.queryCount + 1 }) key (fun _ => rfl) hzero _
  split
  · exact h
  · exact ⟨h.classified, h.candidate.trans (hsum _ rfl).symm, h.range.trans (hsum _ rfl).symm,
      h.bloom.trans (congrArg (· + extra) (hsum _ rfl).symm), h.passed.trans (hsum _ rfl).symm,
      h.matched⟩

/-- One file was probed: `μ'` adds the probe to the global counters and to those of the partition, and
has `denied` more filtered files. -/
structure Probes (μ μ' : Metrics) (probe : L0PartitionProbe) (denied : Nat) : Prop where
  candidate : μ'.candidateL0Segments = μ.candidateL0Segments + probe.candidateSegments
  range : μ'.rangeFilteredSegments = μ.rangeFilteredSegments + probe.rangeFilteredSegments
  bloom : μ'.bloomFilteredSegments =
    μ.bloomFilteredSegments + probe.bloomFilteredSegments + denied
  passed : μ'.filterPassedSegments = μ.filterPassedSegments + probe.filterPassedSegments
  matched : μ'.matchedL0Segments = μ.matchedL0Segments + probe.matchedSegments
  partitions : ∃ key,
    μ'.l0PartitionMetrics = updateEntry key (·.record probe) μ.l0PartitionMetrics

theorem Balanced.probes {μ μ' : Metrics} {extra denied : Nat} {probe : L0PartitionProbe}
    (h : μ.Balanced extra) (hprobes : Probes μ μ' probe denied)
    (hclassified : probe.candidateSegments = probe.rangeFilteredSegments +
      probe.bloomFilteredSegments + probe.filterPassedSegments)
    (hmatched : probe.matchedSegments ≤ probe.filterPassedSegments) :
    μ'.Balanced (extra + denied) := by
  obtain ⟨p₁, p₂, p₃, p₄, p₅, key, hpartitions⟩ := hprobes
  obtain ⟨h₁, h₂, h₃, h₄, h₅, h₆⟩ := h
  have hsum : ∀ counter : L0PartitionProbe → Nat, counter {} = 0 →
      (∀ metric : L0PartitionMetric, counter (metric.record probe).toL0PartitionProbe =
        counter metric.toL0PartitionProbe + counter probe) →
      μ'.partitionSum counter = μ.partitionSum counter + counter probe := by
    intro counter hzero hadd
    rw [partitionSum, hpartitions]
    exact partitionSum_updateEntry key hadd hzero _
  constructor
  · omega
  · rw [hsum (·.candidateSegments) rfl fun _ => rfl]
    omega
  · rw [hsum (·.rangeFilteredSegments) rfl fun _ => rfl]
    omega
  · rw [hsum (·.bloomFilteredSegments) rfl fun _ => rfl]
    omega
  · rw [hsum (·.filterPassedSegments) rfl fun _ => rfl]
    omega
  · omega

/-- A file that passed the filters was read, and is recorded with its partition. -/
theorem Balanced.readProbe {μ μ' : Metrics} {extra denied : Nat} {probe : L0PartitionProbe}
    (h : μ.Balanced extra)
    (hadds : Adds { μ with
      candidateL0Segments := μ.candidateL0Segments + 1
      filterPassedSegments := μ.filterPassedSegments + 1 } μ' denied)
    (key : L0PartitionKey) (hcandidate : probe.candidateSegments = 1)
    (hrange : probe.rangeFilteredSegments = 0) (hbloom : probe.bloomFilteredSegments = 0)
    (hpassed : probe.filterPassedSegments = 1) (hmatched : probe.matchedSegments ≤ 1) :
    (Metrics.recordL0PartitionProbe key probe { μ' with
      matchedL0Segments := μ'.matchedL0Segments + probe.matchedSegments }).Balanced
      (extra + denied) := by
  refine h.probes ⟨hadds.candidate.trans ?_, hadds.range.trans ?_, hadds.bloom.trans ?_,
    hadds.passed.trans ?_, congrArg (· + probe.matchedSegments) hadds.matched, key,
    congrArg _ hadds.partitions⟩ (by omega) (by omega)
  · rw [hcandidate]
  · rw [hrange]
    rfl
  · rw [hbloom]
    rfl
  · rw [hpassed]

end Metrics

/-! ## One file -/

/-- The Bloom filter of the file, as it would be loaded, denies the source. -/
def denies (files : StoreFiles) (m : CsrSegmentMeta) (src : VertexId) : Bool :=
  match readMetadataFromDisk files m with
  | .ok metadata => !metadata.mayContainSrc src
  | .error _ => false

theorem denies_eq {files : StoreFiles} {m : CsrSegmentMeta} {metadata : CachedCsrMetadata}
    (h : readMetadataFromDisk files m = .ok metadata) (src : VertexId) :
    denies files m src = !metadata.mayContainSrc src := by
  rw [denies, h]

section Reads

variable {files : StoreFiles} {S : Set CsrSegmentMeta} {cache : CsrMetadataCache}
  {m : CsrSegmentMeta} {ms : List CsrSegmentMeta} {μ : Metrics} {src : VertexId}

theorem Erases.of_ok {α : Type} {x : ProbeM α} {y : CsrM α} (h : Erases x y) {s s' : Probed} {a : α}
    (hx : x s = .ok a s') : y s.cache = .ok a s'.cache := by
  rcases h s with ⟨a', s'', hx', hy⟩ | ⟨e, s'', hx', -⟩
  · cases hx.symm.trans hx'
    exact hy
  · cases hx.symm.trans hx'

/-- What a counter in front of a read does. -/
theorem count_bind_apply {α : Type} (f : Metrics → Metrics) (x : ProbeM α) (s : Probed) :
    (count f >>= fun _ => x) s = x { s with metrics := f s.metrics } := rfl

theorem uncounted_apply {α : Type} {x : CsrM α} {a : α} {cache' : CsrMetadataCache}
    (h : x cache = .ok a cache') (μ : Metrics) : uncounted x ⟨cache, μ⟩ = .ok a ⟨cache', μ⟩ := by
  rw [uncounted, h]

/-- **A counted read of a file** whose range has the source counts it as filtered iff the filter
denies the source. -/
theorem adds_getNeighbors (hm : m ∈ S) (hread : Readable files m) (hagrees : Agrees files S cache)
    (hrange : ¬(src < m.minSrc ∨ m.maxSrc < src)) :
    ∃ edges s', Counted.getNeighbors files m src ⟨cache, μ⟩ = .ok edges s' ∧
      CsrReader.getNeighbors files m src cache = .ok edges s'.cache ∧
      GrowsFrom files S cache s'.cache ∧
      Metrics.Adds μ s'.metrics (denies files m src).toNat := by
  obtain ⟨written, hstored⟩ := hread
  obtain ⟨header, hdisk⟩ := hstored.readMetadataFromDisk
  obtain ⟨cache₁, hmetadata, -⟩ := metadataFor_spec hm hagrees hdisk
  suffices h : ∃ edges s', Counted.getNeighbors files m src ⟨cache, μ⟩ = .ok edges s' ∧
      Metrics.Adds μ s'.metrics (denies files m src).toNat by
    obtain ⟨edges, s', hrun, hcount⟩ := h
    have herased := (erases_getNeighbors files m src).of_ok hrun
    obtain ⟨cache', hspec, hgrows⟩ := getNeighbors_spec src hm ⟨written, hstored⟩ hagrees
    cases hspec.symm.trans herased
    exact ⟨_, s', hrun, herased, hgrows, hcount⟩
  have hinside : ¬(src < m.minSrc ∨ m.maxSrc < src ∨ m.edgeCount = 0) := by
    rw [← or_assoc]
    exact fun h => h.elim hrange hstored.edgeCount_ne_zero
  rw [Counted.getNeighbors, if_neg hinside, bind_of_ok (uncounted_apply hmetadata μ), denies_eq hdisk]
  generalize hmd : CachedCsrMetadata.new header
    (CsrWriter.edgeOffsets 0 (KeyedSort.sortByKey EdgeRecord.versionKey written)) = metadata
  cases hoffset : findOffsetInOffsets metadata.offsets src with
  | none =>
      simp only
      by_cases hmay : metadata.mayContainSrc src = true
      · rw [if_pos hmay, count_bind_apply, hmay]
        exact ⟨[], _, rfl, rfl, rfl, rfl, rfl, rfl, rfl⟩
      · rw [if_neg hmay, count_bind_apply, Bool.eq_false_of_not_eq_true hmay]
        exact ⟨[], _, rfl, rfl, rfl, rfl, rfl, rfl, rfl⟩
  | some offset =>
      -- a source with an offset is not denied
      obtain ⟨hoffset', hsrc⟩ := mem_of_findOffset hoffset
      have hmay : metadata.mayContainSrc src = true := by
        rw [← hmd] at hoffset' ⊢
        exact SourceBloom.mayContain_fromSources (List.mem_map.mpr ⟨offset, hoffset', hsrc⟩)
      simp only [readBodies, hstored.file_eq]
      rw [hmay]
      exact ⟨_, _, rfl, rfl, rfl, rfl, rfl, rfl, rfl⟩

end Reads

/-! ## A lookup -/

/-- The cache a read leaves behind. -/
def cacheAfter {α : Type} (x : CsrM α) (cache : CsrMetadataCache) : CsrMetadataCache :=
  match x cache with
  | .ok _ cache => cache
  | .error _ cache => cache

theorem cacheAfter_of_ok {α : Type} {x : CsrM α} {cache cache' : CsrMetadataCache} {a : α}
    (h : x cache = .ok a cache') : cacheAfter x cache = cache' := by
  rw [cacheAfter, h]

/-- How many files of `L0` a lookup probes whose metadata is not cached and whose filter denies the
source, although their partition and their range admit it. -/
def coldDenials (files : StoreFiles) (src : VertexId) (edgeType : Option EdgeType) :
    List CsrSegmentMeta → CsrMetadataCache → Nat
  | [], _ => 0
  | m :: ms, cache =>
      if !m.mayContainPartition src edgeType then coldDenials files src edgeType ms cache
      else if src < m.minSrc ∨ m.maxSrc < src then coldDenials files src edgeType ms cache
      else
        let (cachedMayContain, cache) := cache.cachedMayContainSrc m.fileId src
        if cachedMayContain = some false then coldDenials files src edgeType ms cache
        else
          (cachedMayContain.isNone && denies files m src).toNat +
            coldDenials files src edgeType ms (cacheAfter (CsrReader.getNeighbors files m src) cache)

section Lookups

variable {files : StoreFiles} {S : Set CsrSegmentMeta} {cache : CsrMetadataCache}
  {m : CsrSegmentMeta} {ms : List CsrSegmentMeta} {μ : Metrics} {src : VertexId} {extra : Nat}

/-- A cached filter that admits the source is that of the file, which does not deny it. -/
theorem denies_of_cached (hm : m ∈ S) (hagrees : Agrees files S cache)
    (h : (cache.map.lookup m.fileId).map (·.mayContainSrc src) = some true) :
    denies files m src = false := by
  obtain ⟨metadata, hlookup, hmay⟩ := Option.map_eq_some_iff.mp h
  rw [denies_eq (hagrees _ _ hlookup m hm rfl), hmay, Bool.not_true]

/-- A cached filter that lets the source through denies it no more than the file does. -/
theorem toNat_cold (hm : m ∈ S) (hagrees : Agrees files S cache)
    (h : (cache.map.lookup m.fileId).map (·.mayContainSrc src) ≠ some false) :
    (((cache.map.lookup m.fileId).map (·.mayContainSrc src)).isNone && denies files m src).toNat =
      (denies files m src).toNat := by
  cases hanswer : (cache.map.lookup m.fileId).map (·.mayContainSrc src) with
  | none => rfl
  | some may =>
      cases may with
      | false => exact absurd hanswer h
      | true =>
          rw [denies_of_cached hm hagrees hanswer]
          rfl

/-- **The `L0` loop** keeps the counters balanced, up to its cold denials. -/
theorem balanced_l0Neighbors (l0RaRangeBucketSize : UInt64) (src : VertexId)
    (edgeType : Option EdgeType) (hinj : Set.InjOn CsrSegmentMeta.fileId S) (touched : List L0PartitionKey)
    (hread : ∀ m ∈ ms, m ∈ S ∧ Readable files m) (hagrees : Agrees files S cache)
    (hμ : μ.Balanced extra) :
    ∃ edges s', Counted.l0Neighbors files l0RaRangeBucketSize src edgeType touched ms ⟨cache, μ⟩ =
        .ok edges s' ∧ GrowsFrom files S cache s'.cache ∧
      s'.metrics.Balanced (extra + coldDenials files src edgeType ms cache) := by
  induction ms generalizing touched cache μ extra with
  | nil => exact ⟨[], _, rfl, .refl, hμ⟩
  | cons m ms ih =>
      obtain ⟨hm, hreadable⟩ := hread m List.mem_cons_self
      have hrest : ∀ m ∈ ms, m ∈ S ∧ Readable files m := fun m hm =>
        hread m (List.mem_cons_of_mem _ hm)
      have hstep : ∀ {cache₁ touched μ₁ extra}, GrowsFrom files S cache cache₁ → μ₁.Balanced extra →
          ∃ edges s', Counted.l0Neighbors files l0RaRangeBucketSize src edgeType touched ms
              ⟨cache₁, μ₁⟩ = .ok edges s' ∧ GrowsFrom files S cache s'.cache ∧
            s'.metrics.Balanced (extra + coldDenials files src edgeType ms cache₁) := by
        intro cache₁ touched μ₁ extra hgrows hbalanced
        obtain ⟨edges, s', hrun, hgrows', hbalanced'⟩ :=
          ih touched hrest (hgrows.agrees hagrees hinj) hbalanced
        exact ⟨edges, s', hrun, hgrows.trans hgrows', hbalanced'⟩
      rw [Counted.l0Neighbors, coldDenials]
      by_cases hpartition : (!m.mayContainPartition src edgeType) = true
      · -- the partition test counts nothing
        rw [if_pos hpartition, if_pos hpartition]
        exact hstep .refl hμ
      · rw [if_neg hpartition, if_neg hpartition, count_bind_apply, count_bind_apply]
        obtain ⟨key, hkey⟩ : ∃ key, key = l0PartitionKey l0RaRangeBucketSize src edgeType m :=
          ⟨_, rfl⟩
        rw [← hkey]
        obtain ⟨μ₁, hμ₁⟩ : ∃ μ₁, μ₁ = if key ∈ touched then μ else μ.recordL0PartitionQuery key :=
          ⟨_, rfl⟩
        have hbalanced : μ₁.Balanced extra := hμ₁ ▸ hμ.touch key touched
        simp only [← hμ₁]
        by_cases hrange : src < m.minSrc ∨ m.maxSrc < src
        · -- a candidate the range test drops, counted on both sides
          rw [if_pos hrange, if_pos hrange, count_bind_apply, count_bind_apply]
          refine hstep .refl (hbalanced.probes (?_ : Metrics.Probes μ₁ _
            { candidateSegments := 1, rangeFilteredSegments := 1 } 0) rfl le_rfl)
          exact ⟨rfl, rfl, rfl, rfl, rfl, key, rfl⟩
        · rw [if_neg hrange, if_neg hrange]
          obtain ⟨answer, hanswer⟩ : ∃ answer, answer =
              (cache.map.lookup m.fileId).map fun metadata => metadata.mayContainSrc src := ⟨_, rfl⟩
          obtain ⟨cache₁, hcache₁⟩ : ∃ cache₁, cache₁ = (cache.get m.fileId).2 := ⟨_, rfl⟩
          have hcached : cache.cachedMayContainSrc m.fileId src = (answer, cache₁) := by
            rw [CsrMetadataCache.cachedMayContainSrc, hanswer, hcache₁]
            simp
          have hgrows₁ : GrowsFrom files S cache cache₁ := by
            intro id metadata hlookup
            rw [hcache₁, CsrMetadataCache.map_get] at hlookup
            exact Or.inl hlookup
          have hagrees₁ := hgrows₁.agrees hagrees hinj
          have hrun : cachedMayContainSrc m src cache = .ok answer cache₁ := by
            rw [cachedMayContainSrc, hcached]
          rw [bind_of_ok (uncounted_apply hrun _), hcached]
          simp only
          by_cases hdenied : answer = some false
          · rw [if_pos hdenied, if_pos hdenied, count_bind_apply, count_bind_apply]
            refine hstep hgrows₁ (hbalanced.probes (?_ : Metrics.Probes μ₁ _
              { candidateSegments := 1, bloomFilteredSegments := 1, offsetCacheHits := 1 } 0)
              rfl le_rfl)
            exact ⟨rfl, rfl, rfl, rfl, rfl, key, rfl⟩
          · rw [if_neg hdenied, if_neg hdenied, count_bind_apply]
            have hcold := toNat_cold hm hagrees (hanswer ▸ hdenied)
            rw [← hanswer] at hcold
            obtain ⟨μ₂, hμ₂⟩ : ∃ μ₂, μ₂ = ({ μ₁ with
              candidateL0Segments := μ₁.candidateL0Segments + 1
              filterPassedSegments := μ₁.filterPassedSegments + 1 } : Metrics) := ⟨_, rfl⟩
            obtain ⟨edges, s₂, hneighbors, hread₂, hgrows₂, hadds⟩ :=
              adds_getNeighbors (μ := μ₂) hm hreadable hagrees₁ hrange
            rw [hcold, ← Nat.add_assoc, cacheAfter_of_ok hread₂]
            change ∃ edges s', (Counted.getNeighbors files m src >>= _) ⟨cache₁, _⟩ = _ ∧ _
            rw [← hμ₂, bind_of_ok hneighbors, count_bind_apply, count_bind_apply]
            have hfinish : ∀ μ₃ : Metrics, μ₃.Balanced (extra + (denies files m src).toNat) →
                ∃ out s', (Counted.l0Neighbors files l0RaRangeBucketSize src edgeType
                    (key :: touched) ms >>= fun updates => pure (edges ++ updates))
                      ⟨s₂.cache, μ₃⟩ = .ok out s' ∧ GrowsFrom files S cache s'.cache ∧
                  s'.metrics.Balanced (extra + (denies files m src).toNat +
                    coldDenials files src edgeType ms s₂.cache) := by
              intro μ₃ hμ₃
              obtain ⟨updates, s', hrun, hgrows, hbalanced'⟩ := hstep (hgrows₁.trans hgrows₂) hμ₃
              exact ⟨edges ++ updates, s', by rw [bind_of_ok hrun]; rfl, hgrows, hbalanced'⟩
            rw [hμ₂] at hadds
            by_cases hempty : edges = []
            · simp only [hempty, if_true]
              rw [hempty] at hfinish
              exact hfinish _ (hbalanced.readProbe hadds key rfl rfl rfl rfl (Nat.zero_le _))
            · simp only [hempty, if_false]
              exact hfinish _ (hbalanced.readProbe hadds key rfl rfl rfl rfl le_rfl)

/-- A file that holds the source does not deny it. -/
theorem denies_of_mem (hread : Readable files m) (h : ∃ e ∈ segmentRecords files m, e.src = src) :
    denies files m src = false ∧ ¬(src < m.minSrc ∨ m.maxSrc < src) := by
  obtain ⟨written, hstored⟩ := hread
  obtain ⟨header, hdisk⟩ := hstored.readMetadataFromDisk
  obtain ⟨e, he, hsrc⟩ := h
  rw [segmentRecords_of_stored hstored] at he
  constructor
  · obtain ⟨offset, hoffset, hoffsetSrc⟩ := (CsrWriter.exists_mem_edgeOffsets 0).mpr ⟨e, he, hsrc⟩
    rw [denies_eq hdisk, Bool.not_eq_false']
    exact SourceBloom.mayContain_fromSources (List.mem_map.mpr ⟨offset, hoffset, hoffsetSrc⟩)
  · have hbounds := hstored.src_mem_range (KeyedSort.mem_sortByKey.mp he)
    rw [hsrc] at hbounds
    exact fun h => h.elim (absurd hbounds.1 ·.not_ge) (absurd hbounds.2 ·.not_ge)

/-- The files the index lists hold the source, so their reads are not counted. -/
theorem balanced_indexNeighbors (hinj : Set.InjOn CsrSegmentMeta.fileId S)
    (hread : ∀ m ∈ ms, m ∈ S ∧ Readable files m)
    (hholds : ∀ m ∈ ms, ∃ e ∈ segmentRecords files m, e.src = src)
    (hagrees : Agrees files S cache) (hμ : μ.Balanced extra) :
    ∃ edges s', Counted.indexNeighbors files src ms ⟨cache, μ⟩ = .ok edges s' ∧
      s'.metrics.Balanced extra := by
  induction ms generalizing cache μ with
  | nil => exact ⟨[], _, rfl, hμ⟩
  | cons m ms ih =>
      obtain ⟨hm, hreadable⟩ := hread m List.mem_cons_self
      obtain ⟨hdenies, hrange⟩ := denies_of_mem hreadable (hholds m List.mem_cons_self)
      obtain ⟨edges, s₁, hneighbors, -, hgrows, hadds⟩ :=
        adds_getNeighbors (μ := μ) hm hreadable hagrees hrange
      rw [hdenies] at hadds
      obtain ⟨updates, s', hrun, hbalanced⟩ :=
        ih (fun m hm => hread m (List.mem_cons_of_mem _ hm))
          (fun m hm => hholds m (List.mem_cons_of_mem _ hm)) (hgrows.agrees hagrees hinj)
          (hμ.adds hadds)
      refine ⟨edges ++ updates, s', ?_, hbalanced⟩
      rw [Counted.indexNeighbors, bind_of_ok hneighbors]
      exact bind_of_ok hrun

end Lookups

/-! ## An engine with counters -/

/-- A session, the counters of its engine, and how many cold denials its lookups met since the engine
was opened. -/
structure Measured where
  session : Session
  metrics : Metrics
  coldDenials : Nat

namespace Measured

variable (l0RaRangeBucketSize : LsmGraphConfig → UInt64)

/-- The counters after a lookup. -/
def metricsAfter (e : Engine) (src : VertexId) (edgeType : Option EdgeType) (snapshot : SnapshotId)
    (μ : Metrics) : Metrics :=
  match Counted.getNeighborsTypedInternal e.files e.heap (l0RaRangeBucketSize e.config) e.current
      e.index src edgeType snapshot ⟨e.metadataCache, μ⟩ with
  | .ok _ s => s.metrics
  | .error _ s => s.metrics

/-- The cold denials that a lookup meets. -/
def denialsOf (e : Engine) : Op → Nat
  | .getNeighbors src edgeType _ =>
      LsmGraph.coldDenials e.files src edgeType (e.current.level L0.toNat) e.metadataCache
  | _ => 0

/-- A step of the session. Only lookups change these counters; `Engine::open` starts new ones. -/
def step (y : Measured) (op : Op) : Option Measured :=
  (y.session.step op).map fun session =>
    match op with
    | .getNeighbors src edgeType snapshot =>
        { session
          metrics := metricsAfter l0RaRangeBucketSize y.session.engine src edgeType snapshot y.metrics
          coldDenials := y.coldDenials + denialsOf y.session.engine op }
    | .reopen _ => { session, metrics := {}, coldDenials := 0 }
    | _ => { y with session }

def create (config : LsmGraphConfig) : Option Measured :=
  (Session.create config).map fun session => { session, metrics := {}, coldDenials := 0 }

/-- The counters are off by the cold denials. -/
structure Inv (y : Measured) : Prop where
  session : y.session.Inv
  balanced : y.metrics.Balanced y.coldDenials

theorem balanced_empty : Metrics.Balanced {} 0 := ⟨rfl, rfl, rfl, rfl, rfl, le_rfl⟩

variable {l0RaRangeBucketSize} {y z : Measured}

/-- **A lookup** misses the counters by its cold denials. -/
theorem balanced_metricsAfter {e : Engine} (h : e.WF) {μ : Metrics} {extra : Nat}
    (hμ : μ.Balanced extra) (src : VertexId) (edgeType : Option EdgeType) (snapshot : SnapshotId) :
    (metricsAfter l0RaRangeBucketSize e src edgeType snapshot μ).Balanced
      (extra + denialsOf e (.getNeighbors src edgeType snapshot)) := by
  have hl0 : ∀ m ∈ e.current.level 0, m ∈ e.knownFiles ∧ Readable e.files m := fun m hm =>
    h.readable (Version.mem_files_iff.mpr (Or.inl hm))
  have hindex : ∀ m ∈ e.index src, m ∈ e.current.upperFiles ∧
      ∃ r ∈ segmentRecords e.files m, r.src = src := by
    intro m hm
    rw [h.index_eq] at hm
    exact mem_indexOf.mp hm
  obtain ⟨l0, s₁, hl0run, hgrows, hbalanced⟩ := balanced_l0Neighbors
    (l0RaRangeBucketSize e.config) src edgeType h.intact.injOn [] hl0 h.intact.agrees hμ
  obtain ⟨upper, s₂, hrun, hbalanced'⟩ := balanced_indexNeighbors h.intact.injOn
    (fun m hm => h.readable (Version.mem_files_iff.mpr (Or.inr (hindex m hm).1)))
    (fun m hm => (hindex m hm).2) (hgrows.agrees h.intact.agrees h.intact.injOn) hbalanced
  have hlookup : Counted.getNeighborsTypedInternal e.files e.heap (l0RaRangeBucketSize e.config)
      e.current e.index src edgeType snapshot ⟨e.metadataCache, μ⟩ = .ok (mergeVisible
        (retainType edgeType (memgraphEdgesForSrc e.heap e.current src ++ l0 ++ upper)) snapshot)
        s₂ := by
    rw [Counted.getNeighborsTypedInternal]
    exact (bind_of_ok hl0run).trans (bind_of_ok hrun)
  rw [metricsAfter, hlookup]
  exact hbalanced'

theorem inv_step (h : y.Inv) {op : Op} (hz : y.step l0RaRangeBucketSize op = some z) : z.Inv := by
  obtain ⟨x, hx, rfl⟩ := Option.map_eq_some_iff.mp hz
  have hinv := Session.inv_step h.session hx
  cases op with
  | getNeighbors src edgeType snapshot =>
      exact ⟨hinv, balanced_metricsAfter h.session.wf h.balanced src edgeType snapshot⟩
  | reopen config => exact ⟨hinv, balanced_empty⟩
  | _ => exact ⟨hinv, h.balanced⟩

theorem inv_create {config : LsmGraphConfig} (hy : create config = some y) : y.Inv := by
  obtain ⟨x, hx, rfl⟩ := Option.map_eq_some_iff.mp hy
  exact ⟨Session.inv_create hx, balanced_empty⟩

/-- Sources 1 and 3 in one file. -/
def flushedRun : List Op :=
  [.insertEdge 1 5 1, .insertEdge 3 5 1, .beginFlushActive, .runFlushTask 0, .finishFlushActive none]

end Measured

end LsmGraph
