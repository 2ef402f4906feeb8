import LsmGraph.Library.ErrorState
import LsmGraph.Csr.Cache
import LsmGraph.Csr.Writer

/-! # Reading a segment

`csr/reader.rs`: header and offset table come from the metadata cache or from disk, the table is
searched for the source, and only the bodies of that source are read. A reader threads the cache
through its calls. On a file written by `writeSegment`, and with a cache that agrees with the disk
on the files in use (`Agrees`), every read succeeds and returns what was written
(`Stored.getNeighbors`, `Stored.readAllEdges`, `Stored.readOffsets`). -/

namespace LsmGraph

open KeyedSort ErrorState

/-- A computation of the reader: it may fail, and it updates the metadata cache. -/
abbrev CsrM := EStateM EngineError CsrMetadataCache

/-- The decoded header passes the checks of `CsrHeader::decode`. -/
def CsrHeader.check (h : CsrHeader) : Bool := h.magic == csrMagic && h.version == csrVersion

/-- `binary_search_by_key` on a table ascending in its sources: the entry of the source, if any. -/
def findOffsetInOffsets (offsets : List EdgeOffset) (src : VertexId) : Option EdgeOffset :=
  offsets.find? fun offset => offset.src == src

namespace CsrReader

variable (files : StoreFiles)

/-- Read and decode header and offset table. -/
def readMetadataFromDisk (m : CsrSegmentMeta) : Except EngineError CachedCsrMetadata :=
  match files m.level m.fileId with
  | none => .error .io
  | some segment =>
      if segment.header.check then .ok (CachedCsrMetadata.new segment.header segment.offsets)
      else .error .decode

/-- Header and offset table, from the cache if it has them. -/
def metadataFor (m : CsrSegmentMeta) : CsrM CachedCsrMetadata := fun cache =>
  match cache.get m.fileId with
  | (some metadata, cache) => .ok metadata cache
  | (none, cache) =>
      match readMetadataFromDisk files m with
      | .error e => .error e cache
      | .ok metadata => .ok metadata (cache.insert m.fileId metadata)

/-- The bodies one entry of the offset table addresses. -/
def readBodies (m : CsrSegmentMeta) (offset : EdgeOffset) : Except EngineError (List DiskEdgeBody) :=
  match files m.level m.fileId with
  | none => .error .io
  | some segment => .ok ((segment.bodies.drop offset.firstEdgeIdx).take offset.edgeCount)

/-- The edges of one source. -/
def getNeighbors (m : CsrSegmentMeta) (src : VertexId) : CsrM (List EdgeRecord) :=
  if src < m.minSrc ∨ m.maxSrc < src ∨ m.edgeCount = 0 then pure []
  else do
    let metadata ← metadataFor files m
    match findOffsetInOffsets metadata.offsets src with
    | none => pure []
    | some offset =>
        match readBodies files m offset with
        | .error e => throw e
        | .ok bodies => pure (bodies.map fun body => body.toEdgeRecord src)

/-- All edges of a segment; this read bypasses the cache. -/
def readAllEdges (m : CsrSegmentMeta) : Except EngineError (List EdgeRecord) :=
  if m.edgeCount = 0 then .ok []
  else do
    let metadata ← readMetadataFromDisk files m
    match files m.level m.fileId with
    | none => .error .io
    | some segment =>
        .ok (metadata.offsets.flatMap fun offset =>
          ((segment.bodies.drop offset.firstEdgeIdx).take offset.edgeCount).map fun body =>
            body.toEdgeRecord offset.src)

/-- The offset table. -/
def readOffsets (m : CsrSegmentMeta) : CsrM (List EdgeOffset) := do
  let metadata ← metadataFor files m
  pure metadata.offsets

/-- What the filter of a cached file says about a source. -/
def cachedMayContainSrc (m : CsrSegmentMeta) (src : VertexId) : CsrM (Option Bool) := fun cache =>
  match cache.cachedMayContainSrc m.fileId src with
  | (answer, cache) => .ok answer cache

/-! ## Reading back what was written -/

/-- `m` describes a file that `writeSegment` wrote for the nonempty list `edges`. -/
structure Stored (m : CsrSegmentMeta) (edges : List EdgeRecord) : Prop where
  nonempty : edges ≠ []
  file_eq : files m.level m.fileId = some (CsrWriter.writeSegment m.level m.fileId edges).1
  meta_eq : m = (CsrWriter.writeSegment m.level m.fileId edges).2

variable {files} {m : CsrSegmentMeta} {edges : List EdgeRecord}

/-- A segment that was just written is stored under its metadata. -/
theorem stored_writeSegment {level : LevelId} {fileId : FileId} (hne : edges ≠ [])
    (hfile : files level fileId = some (CsrWriter.writeSegment level fileId edges).1) :
    Stored files (CsrWriter.writeSegment level fileId edges).2 edges :=
  ⟨hne, hfile, rfl⟩

/-- Other files do not matter. -/
theorem Stored.congr {files' : StoreFiles} (h : Stored files m edges)
    (heq : files' m.level m.fileId = files m.level m.fileId) : Stored files' m edges :=
  ⟨h.nonempty, heq ▸ h.file_eq, h.meta_eq⟩

theorem Stored.meta_eq_segmentMeta (h : Stored files m edges) :
    m = CsrWriter.segmentMeta m.level m.fileId (sortByKey EdgeRecord.versionKey edges) :=
  h.meta_eq

theorem Stored.edgeCount_ne_zero (h : Stored files m edges) : m.edgeCount ≠ 0 := by
  rw [h.meta_eq_segmentMeta, CsrWriter.segmentMeta, length_sortByKey]
  exact List.length_eq_zero_iff.not.mpr h.nonempty

/-- Every edge of a stored segment lies in the source range of its metadata. -/
theorem Stored.src_mem_range (h : Stored files m edges) {e : EdgeRecord} (he : e ∈ edges) :
    m.minSrc ≤ e.src ∧ e.src ≤ m.maxSrc := by
  rw [h.meta_eq_segmentMeta]
  exact CsrWriter.src_mem_range (CsrWriter.pairwise_src_sortByKey edges) (mem_sortByKey.mpr he)

/-- No edge of a stored segment is newer than its metadata says. -/
theorem Stored.ts_le_maxTs (h : Stored files m edges) {e : EdgeRecord} (he : e ∈ edges) :
    e.ts ≤ m.maxTs := by
  rw [h.meta_eq_segmentMeta]
  exact CsrWriter.ts_le_maxTs (mem_sortByKey.mpr he)

/-- The newest timestamp of the metadata is that of some edge. -/
theorem Stored.exists_ts_eq_maxTs (h : Stored files m edges) : ∃ e ∈ edges, e.ts = m.maxTs := by
  rw [h.meta_eq_segmentMeta]
  have hne : sortByKey EdgeRecord.versionKey edges ≠ [] := sortByKey_eq_nil.not.mpr h.nonempty
  obtain ⟨e, he, hts⟩ := CsrWriter.exists_ts_eq_maxTs m.level m.fileId hne
  exact ⟨e, mem_sortByKey.mp he, hts⟩

/-- The partition test passes for every edge of a stored segment. -/
theorem Stored.mayContainPartition (h : Stored files m edges) {e : EdgeRecord} (he : e ∈ edges)
    {edgeType : Option EdgeType} (htype : ∀ t, edgeType = some t → e.edgeType = t) :
    m.mayContainPartition e.src edgeType = true := by
  rw [h.meta_eq_segmentMeta]
  exact CsrWriter.mayContainPartition_segmentMeta (mem_sortByKey.mpr he) htype

/-- The metadata of a stored segment is readable. -/
theorem Stored.readMetadataFromDisk (h : Stored files m edges) :
    ∃ header, readMetadataFromDisk files m = .ok (CachedCsrMetadata.new header
      (CsrWriter.edgeOffsets 0 (sortByKey EdgeRecord.versionKey edges))) := by
  refine ⟨(CsrWriter.writeSegment m.level m.fileId edges).1.header, ?_⟩
  rw [CsrReader.readMetadataFromDisk, h.file_eq]
  exact if_pos rfl

/-- **Full read.** A stored segment reads back as its sorted edges. -/
theorem Stored.readAllEdges (h : Stored files m edges) :
    readAllEdges files m = .ok (sortByKey EdgeRecord.versionKey edges) := by
  obtain ⟨header, hmetadata⟩ := h.readMetadataFromDisk
  rw [CsrReader.readAllEdges, if_neg h.edgeCount_ne_zero, hmetadata, h.file_eq]
  refine congrArg Except.ok ?_
  refine Eq.trans (List.flatMap_congr fun o ho => ?_)
    (CsrWriter.flatMap_slice_edgeOffsets 0 (sortByKey EdgeRecord.versionKey edges))
  have hsorted := CsrWriter.pairwise_src_sortByKey edges
  rw [CsrWriter.slice_edgeOffsets 0 hsorted o ho]
  exact CsrWriter.map_toEdgeRecord_bodies hsorted o ho

/-! ## Reading through the cache

`S` is the set of files in use. A read only ever adds entries decoded from files in `S`
(`GrowsFrom`), which keeps the cache in agreement with the disk on `S`. -/

section Cache

variable {S : Set CsrSegmentMeta} {cache cache' cache'' : CsrMetadataCache}

variable (files S) in
/-- What is cached for a file of `S` is what the disk holds. -/
def Agrees (cache : CsrMetadataCache) : Prop :=
  ∀ id metadata, cache.map.lookup id = some metadata → ∀ m ∈ S, m.fileId = id →
    CsrReader.readMetadataFromDisk files m = .ok metadata

variable (files S) in
/-- Every entry of `cache'` is an entry of `cache` or was read from a file of `S`. -/
def GrowsFrom (cache cache' : CsrMetadataCache) : Prop :=
  ∀ id metadata, cache'.map.lookup id = some metadata → cache.map.lookup id = some metadata ∨
    ∃ m ∈ S, m.fileId = id ∧ CsrReader.readMetadataFromDisk files m = .ok metadata

theorem GrowsFrom.refl : GrowsFrom files S cache cache := fun _ _ => Or.inl

theorem GrowsFrom.trans (h : GrowsFrom files S cache cache')
    (h' : GrowsFrom files S cache' cache'') : GrowsFrom files S cache cache'' := by
  intro id metadata hlookup
  rcases h' id metadata hlookup with hlookup | hread
  · exact h id metadata hlookup
  · exact Or.inr hread

/-- Reads keep the cache in agreement with the disk. -/
theorem GrowsFrom.agrees (h : GrowsFrom files S cache cache') (hagrees : Agrees files S cache)
    (hinj : Set.InjOn CsrSegmentMeta.fileId S) : Agrees files S cache' := by
  intro id metadata hlookup m hm hid
  rcases h id metadata hlookup with hlookup | ⟨m', hm', hid', hread⟩
  · exact hagrees id metadata hlookup m hm hid
  · rwa [hinj hm hm' (hid.trans hid'.symm)]

/-- Header and offset table of a readable file are returned, cached or not. -/
theorem metadataFor_spec {metadata : CachedCsrMetadata} (hm : m ∈ S) (hagrees : Agrees files S cache)
    (hread : CsrReader.readMetadataFromDisk files m = .ok metadata) :
    ∃ cache', metadataFor files m cache = .ok metadata cache' ∧ GrowsFrom files S cache cache' := by
  rw [metadataFor, CsrMetadataCache.get]
  cases hlookup : cache.map.lookup m.fileId with
  | some found =>
      have heq := hagrees _ _ hlookup m hm rfl
      rw [hread, Except.ok.injEq] at heq
      subst heq
      exact ⟨_, rfl, fun _ _ => Or.inl⟩
  | none =>
      simp only [hread]
      refine ⟨_, rfl, fun id found hfound => ?_⟩
      rcases CsrMetadataCache.lookup_insert hfound with ⟨rfl, rfl⟩ | hfound
      · exact Or.inr ⟨m, hm, rfl, hread⟩
      · exact Or.inl hfound

/-- The offset table of a stored segment is read. -/
theorem Stored.readOffsets (h : Stored files m edges) (hm : m ∈ S) (hagrees : Agrees files S cache) :
    ∃ cache', readOffsets files m cache =
        .ok (CsrWriter.edgeOffsets 0 (sortByKey EdgeRecord.versionKey edges)) cache' ∧
      GrowsFrom files S cache cache' := by
  obtain ⟨header, hread⟩ := h.readMetadataFromDisk
  obtain ⟨cache', hmetadata, hgrows⟩ := metadataFor_spec hm hagrees hread
  exact ⟨cache', by rw [CsrReader.readOffsets, bind_of_ok hmetadata]; rfl, hgrows⟩

/-- A source without an entry in the table has no edge. -/
theorem filter_eq_nil_of_findOffset {edges : List EdgeRecord} {src : VertexId}
    (h : findOffsetInOffsets (CsrWriter.edgeOffsets 0 edges) src = none) :
    (edges.filter fun e => e.src = src) = [] := by
  rw [findOffsetInOffsets, List.find?_eq_none] at h
  refine List.filter_eq_nil_iff.mpr fun e he hsrc => ?_
  obtain ⟨o, ho, hosrc⟩ :=
    (CsrWriter.exists_mem_edgeOffsets 0).mpr ⟨e, he, of_decide_eq_true hsrc⟩
  exact h o ho (by simpa using hosrc)

/-- The entry found is the one of the source. -/
theorem mem_of_findOffset {offsets : List EdgeOffset} {src : VertexId} {o : EdgeOffset}
    (h : findOffsetInOffsets offsets src = some o) : o ∈ offsets ∧ o.src = src := by
  rw [findOffsetInOffsets] at h
  exact ⟨List.mem_of_find?_eq_some h, by simpa using List.find?_some h⟩

/-- **Neighbour read.** From a stored segment the edges of a source are read, whether or not the
source occurs in it and whether or not its metadata is cached. -/
theorem Stored.getNeighbors (h : Stored files m edges) (hm : m ∈ S) (hagrees : Agrees files S cache)
    (src : VertexId) :
    ∃ cache', getNeighbors files m src cache =
        .ok ((sortByKey EdgeRecord.versionKey edges).filter fun e => e.src = src) cache' ∧
      GrowsFrom files S cache cache' := by
  have hsorted := CsrWriter.pairwise_src_sortByKey edges
  rw [CsrReader.getNeighbors]
  by_cases hrange : src < m.minSrc ∨ m.maxSrc < src ∨ m.edgeCount = 0
  · rw [if_pos hrange]
    refine ⟨cache, ?_, .refl⟩
    rw [h.meta_eq_segmentMeta] at hrange
    rw [CsrWriter.filter_eq_nil_of_range hsorted hrange, pure_apply]
  · rw [if_neg hrange]
    obtain ⟨header, hread⟩ := h.readMetadataFromDisk
    obtain ⟨cache', hmetadata, hgrows⟩ := metadataFor_spec hm hagrees hread
    refine ⟨cache', ?_, hgrows⟩
    rw [bind_of_ok hmetadata]
    simp only [CachedCsrMetadata.new]
    cases hoffset : findOffsetInOffsets
        (CsrWriter.edgeOffsets 0 (sortByKey EdgeRecord.versionKey edges)) src with
    | none =>
        rw [filter_eq_nil_of_findOffset hoffset]
        rfl
    | some o =>
        obtain ⟨ho, rfl⟩ := mem_of_findOffset hoffset
        rw [← CsrWriter.map_toEdgeRecord_bodies hsorted o ho]
        simp only [readBodies, h.file_eq]
        rfl

/-- **The cached filter is sound**: it never denies a source that a stored segment holds. -/
theorem Stored.cachedMayContainSrc (h : Stored files m edges) (hm : m ∈ S)
    (hagrees : Agrees files S cache) (src : VertexId) :
    ∃ answer cache', cachedMayContainSrc m src cache = .ok answer cache' ∧
      GrowsFrom files S cache cache' ∧ ∀ e ∈ edges, e.src = src → answer ≠ some false := by
  refine ⟨(cache.map.lookup m.fileId).map fun metadata => metadata.mayContainSrc src,
    (cache.get m.fileId).2, ?_, ?_, ?_⟩
  · rw [CsrReader.cachedMayContainSrc, CsrMetadataCache.cachedMayContainSrc]
    simp
  · intro id metadata hlookup
    rw [CsrMetadataCache.map_get] at hlookup
    exact Or.inl hlookup
  · intro e he hsrc hfalse
    obtain ⟨metadata, hlookup, hfilter⟩ := Option.map_eq_some_iff.mp hfalse
    obtain ⟨header, hread⟩ := h.readMetadataFromDisk
    have heq := hagrees _ _ hlookup m hm rfl
    rw [hread, Except.ok.injEq] at heq
    subst heq
    have hsorted : e ∈ sortByKey EdgeRecord.versionKey edges := mem_sortByKey.mpr he
    obtain ⟨o, ho, hosrc⟩ :=
      (CsrWriter.exists_mem_edgeOffsets 0).mpr ⟨e, hsorted, hsrc⟩
    rw [CachedCsrMetadata.mayContainSrc, CachedCsrMetadata.new,
      SourceBloom.mayContain_fromSources (List.mem_map.mpr ⟨o, ho, hosrc⟩)] at hfilter
    exact Bool.noConfusion hfilter

end Cache

end CsrReader

end LsmGraph
