import LsmGraph.Csr.CacheQueue

/-! # What a cached `false` means

The Bloom filters of `csr/cache.rs` over runs of the metadata cache. Metadata is only made by
`CachedCsrMetadata::new`, so in every run each cached filter is the one built from the sources of its
own offset table (`filtersMatch_after`), and a `false` from the cache means that the table has no
entry for the source (`filter_sound`). -/

namespace LsmGraph

/-- Metadata comes from `CachedCsrMetadata::new`. -/
def CacheCall.Built : CacheCall → Prop
  | .get _ => True
  | .insert _ metadata => ∃ header offsets, metadata = CachedCsrMetadata.new header offsets
  | .cachedMayContainSrc _ _ => True

namespace CsrMetadataCache

/-- Every cached filter is built from the sources of its table. -/
def FiltersMatch (c : CsrMetadataCache) : Prop :=
  ∀ fileId metadata, c.map.lookup fileId = some metadata →
    metadata.srcFilter = SourceBloom.fromSources (metadata.offsets.map EdgeOffset.src)

/-- **Step lemma.** -/
theorem FiltersMatch.call {c : CsrMetadataCache} (h : c.FiltersMatch) {call : CacheCall}
    (hbuilt : call.Built) : (c.call call).FiltersMatch := by
  cases call with
  | get fileId =>
      intro id metadata hlookup
      rw [CsrMetadataCache.call, map_get] at hlookup
      exact h id metadata hlookup
  | insert fileId metadata =>
      obtain ⟨header, offsets, rfl⟩ := hbuilt
      intro id found hlookup
      rcases lookup_insert hlookup with ⟨-, rfl⟩ | hlookup
      · rfl
      · exact h id found hlookup
  | cachedMayContainSrc fileId src =>
      intro id metadata hlookup
      have hmap : (c.call (.cachedMayContainSrc fileId src)).map = c.map := map_get c fileId
      rw [hmap] at hlookup
      exact h id metadata hlookup

/-- **Run lemma.** -/
theorem filtersMatch_after (maxEntries : Nat) {calls : List CacheCall}
    (hbuilt : ∀ call ∈ calls, call.Built) : (after maxEntries calls).FiltersMatch := by
  rw [after]
  refine List.foldlRecOn calls CsrMetadataCache.call ?_ fun c hc call hcall => ?_
  · intro fileId metadata hlookup
    exact absurd hlookup (by simp [new])
  · exact FiltersMatch.call hc (hbuilt call hcall)

theorem cachedMayContainSrc_fst (c : CsrMetadataCache) (fileId : FileId) (src : VertexId) :
    (c.cachedMayContainSrc fileId src).1 =
      (c.map.lookup fileId).map fun metadata => metadata.mayContainSrc src := by
  rw [← get_fst]
  rfl

/-- **A filter denies no source of its table.** -/
theorem FiltersMatch.ne_of_denied {c : CsrMetadataCache} (h : c.FiltersMatch) {fileId : FileId}
    {src : VertexId} (hdenied : (c.cachedMayContainSrc fileId src).1 = some false) :
    ∃ metadata, c.map.lookup fileId = some metadata ∧ ∀ o ∈ metadata.offsets, o.src ≠ src := by
  rw [cachedMayContainSrc_fst] at hdenied
  obtain ⟨metadata, hlookup, hfalse⟩ := Option.map_eq_some_iff.mp hdenied
  refine ⟨metadata, hlookup, fun o ho hsrc => ?_⟩
  have hmem : src ∈ metadata.offsets.map EdgeOffset.src := hsrc ▸ List.mem_map_of_mem ho
  rw [CachedCsrMetadata.mayContainSrc, h fileId metadata hlookup,
    SourceBloom.mayContain_fromSources hmem] at hfalse
  cases hfalse

end CsrMetadataCache

namespace SourceBloom

/-- The sizes of a filter fit a `usize`, for the sources of any offset table that fits in memory. -/
theorem nextPowerOfTwo_lt {count : Nat} (h : count * edgeOffsetLen < 2 ^ 63) :
    max count 4 * 16 < 2 ^ 64 ∧ nextPowerOfTwo (max count 4 * 16) < 2 ^ 64 := by
  have hlen : count * 24 < 2 ^ 63 := h
  have hcount : max count 4 * 16 < 2 ^ 63 := by omega
  refine ⟨hcount.trans (by decide), ?_⟩
  rw [nextPowerOfTwo, if_neg (by omega)]
  have hlog : Nat.log2 (max count 4 * 16 - 1) < 63 := (Nat.log2_lt (by omega)).mpr (by omega)
  exact Nat.pow_lt_pow_right (by decide) (by omega)

/-- **The source filter has no false negatives.** For every list of sources: the sizes computed do not
overflow if the table they come from fits in memory; every filter on the way probes and sets bits
inside its array only, for any source; and the filter contains each source of the list. Hence, after
any run of the cache, `Some(false)` means that the cached table has no entry for the source. -/
theorem filter_sound (maxEntries : Nat) (calls : List CacheCall)
    (hbuilt : ∀ call ∈ calls, call.Built) :
    (∀ sources : List VertexId,
      (sources.length * edgeOffsetLen < 2 ^ 63 → max sources.length 4 * 16 < 2 ^ 64 ∧
        nextPowerOfTwo (max sources.length 4 * 16) < 2 ^ 64) ∧
      (∀ done rest, done ++ rest = sources →
        (done.foldl insert (sized sources.length)).InRange) ∧
      ∀ src ∈ sources, (fromSources sources).mayContain src = true) ∧
    ∀ fileId src,
      ((CsrMetadataCache.after maxEntries calls).cachedMayContainSrc fileId src).1 = some false →
        ∃ metadata, (CsrMetadataCache.after maxEntries calls).map.lookup fileId = some metadata ∧
          ∀ o ∈ metadata.offsets, o.src ≠ src := by
  refine ⟨fun sources => ⟨nextPowerOfTwo_lt, fun done rest _ => ?_, fun src => ?_⟩, ?_⟩
  · exact (inRange_sized sources.length).foldl_insert done
  · exact mayContain_fromSources
  · intro fileId src hdenied
    exact (CsrMetadataCache.filtersMatch_after maxEntries hbuilt).ne_of_denied hdenied

/-- Metadata of a file with one source. -/
def oneSource : CachedCsrMetadata := .new
  { magic := csrMagic, version := csrVersion, headerLen := csrHeaderLen, level := 0, flags := 0
    fileId := 1, createTs := 0, minTs := 0, maxTs := 0, srcLabel := 0, edgeTypePartition := 0
    minSrc := 5, maxSrc := 5, edgeOffsetCount := 1, edgeBodyCount := 1
    offsetsOffset := csrHeaderLen, offsetsLen := edgeOffsetLen
    bodiesOffset := csrHeaderLen + edgeOffsetLen, bodiesLen := diskEdgeBodyLen, checksum := 0 }
  [⟨5, 0, 1⟩]

/-- It is cached, and asked for another source. -/
theorem filter_sound_denied :
    let c := CsrMetadataCache.after 8 [.insert 1 oneSource]
    (c.cachedMayContainSrc 1 6).1 = some false ∧
      ∃ metadata, c.map.lookup 1 = some metadata ∧ ∀ o ∈ metadata.offsets, o.src ≠ 6 := by
  have hbuilt : ∀ call ∈ [CacheCall.insert 1 oneSource], call.Built := by
    intro call hcall
    rw [List.mem_singleton.mp hcall]
    exact ⟨_, _, rfl⟩
  have hdenied : ((CsrMetadataCache.after 8 [.insert 1 oneSource]).cachedMayContainSrc 1 6).1 =
      some false := by decide +kernel
  exact ⟨hdenied, (filter_sound 8 _ hbuilt).2 1 6 hdenied⟩

end SourceBloom

end LsmGraph
