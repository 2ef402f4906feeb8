import LsmGraph.Csr.Bytes

/-! # Segments through bytes, whole and cut short

What the readers find in the first `cut` bytes of a written file. With all bytes there, they return
what was written (`writeSegment_roundTrip`). With fewer, a read fails as it should exactly when
nothing is cached and the header itself is cut (`truncation_safe_iff`): the readers check neither the
offset table nor the bodies against the lengths of the header. -/

namespace LsmGraph

open ByteLayout KeyedSort

/-- A `Vec<EdgeRecord>`: its bytes do not exceed `isize::MAX`. -/
structure EdgeVec where
  edges : List EdgeRecord
  length_le : edges.length * EdgeRecord.size ≤ 2 ^ 63 - 1

namespace CsrBytes

variable (level : LevelId) (fileId : UInt64) (v : EdgeVec)

/-- The edges as the file holds them. -/
def stored : List EdgeRecord := sortByKey EdgeRecord.versionKey v.edges

def segment : CsrSegment := (CsrWriter.writeSegment level fileId.toNat v.edges).1

def metadata : CsrSegmentMeta := (CsrWriter.writeSegment level fileId.toNat v.edges).2

def offsets : List EdgeOffset := CsrWriter.edgeOffsets 0 (stored v)

/-- The bytes `write_segment` writes. -/
def file : List UInt8 := (segment level fileId v).encode

/-- Where the bodies start. -/
def bodiesOffset : Nat := csrHeaderLen + (offsets v).length * edgeOffsetLen

/-! ## Sizes -/

@[simp] theorem length_stored : (stored v).length = v.edges.length := length_sortByKey _ _

theorem length_offsets_le : (offsets v).length ≤ v.edges.length :=
  (CsrWriter.length_edgeOffsets_le 0 (stored v)).trans (length_stored v).le

theorem length_edges_lt : v.edges.length < 2 ^ 58 := by
  have h := v.length_le
  unfold EdgeRecord.size at h
  omega

theorem length_file :
    (file level fileId v).length = bodiesOffset v + v.edges.length * diskEdgeBodyLen := by
  have hoffsets := @length_flatMap_const _ _ _ _ EdgeOffset.length_encode (offsets v)
  have hbodies := @length_flatMap_const _ _ _ _ DiskEdgeBody.length_encode
    ((stored v).map DiskEdgeBody.ofRecord)
  rw [List.length_map, length_stored] at hbodies
  unfold file CsrSegment.encode
  rw [List.length_append, List.length_append, CsrHeader.length_encode]
  exact congrArg₂ (· + ·) (congrArg (csrHeaderLen + ·) hoffsets) hbodies

/-- The numbers in the header of a written file fit their fields. -/
theorem header_fits : (segment level fileId v).header.Fits := by
  have hlen := length_edges_lt v
  have hoffsets := length_offsets_le v
  have hstored := length_stored v
  unfold stored at hstored
  unfold offsets stored at hoffsets
  constructor <;>
    simp only [segment, CsrWriter.writeSegment, CsrWriter.segmentHeader, CsrWriter.segmentMeta,
      csrHeaderLen, edgeOffsetLen, diskEdgeBodyLen, hstored]
  · decide
  · exact fileId.toNat_lt
  all_goals omega

/-- The entries of the table fit their fields. -/
theorem decode_encode_offset {o : EdgeOffset} (ho : o ∈ offsets v) :
    EdgeOffset.decode o.encode = o := by
  have hstop := (CsrWriter.tiles_edgeOffsets 0 (stored v)).le_stop.2 o ho
  rw [length_stored] at hstop
  have hlen := length_edges_lt v
  exact EdgeOffset.decode_encode (by omega) (by omega)

/-! ## Reading a prefix -/

variable (cut : Nat)

/-- The first `cut` bytes of the file. -/
def prefixOf : List UInt8 := (file level fileId v).take cut

theorem readAt_header (hcut : csrHeaderLen ≤ cut) :
    readAt (prefixOf level fileId v cut) 0 csrHeaderLen = (segment level fileId v).header.encode := by
  have hhead : slice (file level fileId v) 0 csrHeaderLen =
      (segment level fileId v).header.encode := by
    unfold file CsrSegment.encode
    rw [List.append_assoc]
    exact slice_append_left (CsrHeader.length_encode _)
  rw [readAt, prefixOf, slice_take, hhead, Nat.sub_zero]
  exact List.take_of_length_le (by rwa [CsrHeader.length_encode])

theorem readAt_offsets : readAt (prefixOf level fileId v cut) csrHeaderLen
    ((offsets v).length * edgeOffsetLen) =
      ((offsets v).flatMap EdgeOffset.encode).take (cut - csrHeaderLen) := by
  have htable : slice (file level fileId v) csrHeaderLen ((offsets v).length * edgeOffsetLen) =
      (offsets v).flatMap EdgeOffset.encode := by
    unfold file CsrSegment.encode
    rw [List.append_assoc, slice_append_right (CsrHeader.length_encode _).le,
      CsrHeader.length_encode, Nat.sub_self]
    exact slice_append_left (length_flatMap_const EdgeOffset.length_encode _)
  rw [readAt, prefixOf, slice_take, htable]

theorem readAt_bodies (first count : Nat) : readAt (prefixOf level fileId v cut)
    (bodiesOffset v + first * diskEdgeBodyLen) (count * diskEdgeBodyLen) =
      (((((stored v).map DiskEdgeBody.ofRecord).drop first).take count).flatMap
        DiskEdgeBody.encode).take (cut - (bodiesOffset v + first * diskEdgeBodyLen)) := by
  have hlen : ((segment level fileId v).header.encode ++
      (segment level fileId v).offsets.flatMap EdgeOffset.encode).length = bodiesOffset v := by
    rw [List.length_append, CsrHeader.length_encode, length_flatMap_const EdgeOffset.length_encode]
    rfl
  have hbodies : slice (file level fileId v) (bodiesOffset v + first * diskEdgeBodyLen)
      (count * diskEdgeBodyLen) =
        ((((stored v).map DiskEdgeBody.ofRecord).drop first).take count).flatMap
          DiskEdgeBody.encode := by
    unfold file CsrSegment.encode
    rw [slice_append_right (by omega), hlen, Nat.add_sub_cancel_left]
    exact slice_flatMap_const DiskEdgeBody.length_encode _ first count
  rw [readAt, prefixOf, slice_take, hbodies]

/-- **What the metadata of a prefix is**: an error when the header is cut, else the header with the
entries that are whole. -/
theorem readMetadataFromDisk_take :
    readMetadataFromDisk (prefixOf level fileId v cut) =
      if cut < csrHeaderLen then .error .error
      else .ok (CachedCsrMetadata.new (segment level fileId v).header
        ((offsets v).take ((cut - csrHeaderLen) / edgeOffsetLen))) := by
  unfold readMetadataFromDisk
  split
  · rename_i hcut
    have hshort : (readAt (prefixOf level fileId v cut) 0 csrHeaderLen).length < csrHeaderLen := by
      rw [readAt, length_slice, prefixOf, List.length_take]
      omega
    rw [CsrHeader.decode, if_pos hshort]
    rfl
  · rename_i hcut
    rw [readAt_header level fileId v cut (not_lt.mp hcut),
      CsrHeader.decode_encode (header_fits level fileId v) rfl]
    have htable := readAt_offsets level fileId v cut
    have hchunks := @chunksExact_take_flatMap _ _ _ _ EdgeOffset.length_encode (by decide)
      (offsets v) (cut - csrHeaderLen)
    have hdecode : (((offsets v).map EdgeOffset.encode).take
        ((cut - csrHeaderLen) / edgeOffsetLen)).map EdgeOffset.decode =
          (offsets v).take ((cut - csrHeaderLen) / edgeOffsetLen) := by
      rw [← List.map_take, List.map_map]
      refine (List.map_congr_left fun o ho => ?_).trans (List.map_id _)
      exact decode_encode_offset v (List.mem_of_mem_take ho)
    have hoffsets : (chunksExact edgeOffsetLen (readAt (prefixOf level fileId v cut)
        (segment level fileId v).header.offsetsOffset
          (segment level fileId v).header.offsetsLen)).map EdgeOffset.decode =
            (offsets v).take ((cut - csrHeaderLen) / edgeOffsetLen) := by
      rw [← hdecode, ← hchunks, ← htable]
      rfl
    exact congrArg (fun os => Except.ok (CachedCsrMetadata.new _ os)) hoffsets

/-- **What the bodies of an entry are** in a prefix: those that are whole. -/
theorem readBodies_take (o : EdgeOffset) :
    readBodies (prefixOf level fileId v cut) (bodiesOffset v) o =
      ((((stored v).map DiskEdgeBody.ofRecord).drop o.firstEdgeIdx).take o.edgeCount).take
        ((cut - (bodiesOffset v + o.firstEdgeIdx * diskEdgeBodyLen)) / diskEdgeBodyLen) := by
  unfold readBodies
  simp only
  rw [readAt_bodies, chunksExact_take_flatMap DiskEdgeBody.length_encode (by decide),
    ← List.map_take, List.map_map]
  refine (List.map_congr_left fun b _ => ?_).trans (List.map_id _)
  exact DiskEdgeBody.decode_encode b

/-! ## The whole file -/

theorem prefixOf_length : prefixOf level fileId v (file level fileId v).length =
    file level fileId v := List.take_length

/-- The edges of an entry. -/
theorem edgesOf_offset {o : EdgeOffset} (ho : o ∈ offsets v) :
    ((((stored v).map DiskEdgeBody.ofRecord).drop o.firstEdgeIdx).take o.edgeCount).map
      (fun body => body.toEdgeRecord o.src) = (stored v).filter fun e => e.src = o.src :=
  CsrWriter.map_toEdgeRecord_bodies (CsrWriter.pairwise_src_sortByKey v.edges) o ho

theorem stop_le {o : EdgeOffset} (ho : o ∈ offsets v) :
    o.firstEdgeIdx + o.edgeCount ≤ v.edges.length := by
  have hstop := (CsrWriter.tiles_edgeOffsets 0 (stored v)).le_stop.2 o ho
  rwa [length_stored, Nat.zero_add] at hstop

theorem readMetadataFromDisk_file : readMetadataFromDisk (file level fileId v) =
    .ok (CachedCsrMetadata.new (segment level fileId v).header (offsets v)) := by
  have hlen := length_file level fileId v
  have hread := readMetadataFromDisk_take level fileId v (file level fileId v).length
  have hwhole : (offsets v).length ≤
      ((file level fileId v).length - csrHeaderLen) / edgeOffsetLen := by
    rw [Nat.le_div_iff_mul_le (by decide), hlen, bodiesOffset]
    omega
  rw [prefixOf_length, List.take_of_length_le hwhole, if_neg] at hread
  · exact hread
  · rw [hlen, bodiesOffset]
    omega

/-- All bodies of an entry are in the whole file. -/
theorem readBodies_file {o : EdgeOffset} (ho : o ∈ offsets v) :
    readBodies (file level fileId v) (bodiesOffset v) o =
      (((stored v).map DiskEdgeBody.ofRecord).drop o.firstEdgeIdx).take o.edgeCount := by
  have hread := readBodies_take level fileId v (file level fileId v).length o
  have hstop := stop_le v ho
  rw [prefixOf_length, List.take_of_length_le] at hread
  · exact hread
  · rw [Nat.le_div_iff_mul_le (by decide), length_file, List.length_take, List.length_drop,
      List.length_map, length_stored]
    have hmul : (o.firstEdgeIdx + o.edgeCount) * diskEdgeBodyLen ≤
        v.edges.length * diskEdgeBodyLen := Nat.mul_le_mul_right _ hstop
    have hmin : min o.edgeCount (v.edges.length - o.firstEdgeIdx) = o.edgeCount := by omega
    rw [hmin]
    rw [Nat.add_mul] at hmul
    omega

/-- A lookup whose metadata is that of the whole file. -/
theorem getNeighbors_of_metadata {bytes : List UInt8} {cached : Option CachedCsrMetadata}
    (hmetadata : metadataFor bytes cached =
      .ok (CachedCsrMetadata.new (segment level fileId v).header (offsets v))) (src : VertexId) :
    getNeighbors bytes cached (metadata level fileId v) src =
      if src < (metadata level fileId v).minSrc ∨ (metadata level fileId v).maxSrc < src ∨
          (metadata level fileId v).edgeCount = 0 then .ok []
      else match findOffsetInOffsets (offsets v) src with
        | none => .ok []
        | some o => .ok ((readBodies bytes (bodiesOffset v) o).map fun body =>
            body.toEdgeRecord src) := by
  rw [getNeighbors, hmetadata]
  rfl

theorem metadataFor_file {cached : Option CachedCsrMetadata}
    (hcached : ∀ md, cached = some md → readMetadataFromDisk (file level fileId v) = .ok md)
    {bytes : List UInt8} (hbytes : cached = none → bytes = file level fileId v) :
    metadataFor bytes cached =
      .ok (CachedCsrMetadata.new (segment level fileId v).header (offsets v)) := by
  cases hcase : cached with
  | none =>
      rw [metadataFor, hbytes hcase]
      exact readMetadataFromDisk_file level fileId v
  | some md =>
      rw [metadataFor, ← hcached md hcase]
      exact readMetadataFromDisk_file level fileId v

/-- A lookup in the whole file finds the edges of the source. -/
theorem getNeighbors_file {cached : Option CachedCsrMetadata}
    (hcached : ∀ md, cached = some md → readMetadataFromDisk (file level fileId v) = .ok md)
    (src : VertexId) :
    getNeighbors (file level fileId v) cached (metadata level fileId v) src =
      .ok ((stored v).filter fun e => e.src = src) := by
  have hsorted := CsrWriter.pairwise_src_sortByKey v.edges
  rw [getNeighbors_of_metadata level fileId v (metadataFor_file level fileId v hcached fun _ => rfl)]
  split
  · rename_i hrange
    rw [stored, CsrWriter.filter_eq_nil_of_range hsorted hrange]
  · split
    · rename_i hfind
      exact congrArg Except.ok (CsrReader.filter_eq_nil_of_findOffset hfind).symm
    · rename_i o hfind
      obtain ⟨ho, rfl⟩ := CsrReader.mem_of_findOffset hfind
      rw [readBodies_file level fileId v ho, edgesOf_offset v ho]

/-- The loop over the table collects the edges of its entries. -/
theorem collectEdges_eq (os : List EdgeOffset) (hos : ∀ o ∈ os, o ∈ offsets v) :
    collectEdges (((stored v).map DiskEdgeBody.ofRecord).flatMap DiskEdgeBody.encode) os =
      .ok (os.flatMap fun o => (stored v).filter fun e => e.src = o.src) := by
  induction os with
  | nil => rfl
  | cons o os ih =>
      have ho := hos o List.mem_cons_self
      have hrest := ih fun o' ho' => hos o' (List.mem_cons_of_mem o ho')
      have hstop := Nat.mul_le_mul_right diskEdgeBodyLen (stop_le v ho)
      rw [Nat.add_mul] at hstop
      have hfit : o.firstEdgeIdx * diskEdgeBodyLen + o.edgeCount * diskEdgeBodyLen ≤
          (((stored v).map DiskEdgeBody.ofRecord).flatMap DiskEdgeBody.encode).length := by
        rw [length_flatMap_const DiskEdgeBody.length_encode, List.length_map, length_stored]
        exact hstop
      have hedges : (chunksExact diskEdgeBodyLen (slice
          (((stored v).map DiskEdgeBody.ofRecord).flatMap DiskEdgeBody.encode)
            (o.firstEdgeIdx * diskEdgeBodyLen) (o.edgeCount * diskEdgeBodyLen))).map
              (fun chunk => (DiskEdgeBody.decode chunk).toEdgeRecord o.src) =
                (stored v).filter fun e => e.src = o.src := by
        rw [slice_flatMap_const DiskEdgeBody.length_encode,
          chunksExact_flatMap DiskEdgeBody.length_encode (by decide), List.map_map,
          ← edgesOf_offset v ho]
        refine List.map_congr_left fun b _ => ?_
        rw [Function.comp_apply, DiskEdgeBody.decode_encode]
      rw [collectEdges, List.flatMap_cons]
      simp only [if_pos hfit, hedges, hrest]
      rfl

/-- A scan of the whole file returns all edges. -/
theorem readAllEdges_file (hne : v.edges ≠ []) :
    readAllEdges (file level fileId v) (metadata level fileId v) = .ok (stored v) := by
  have hcount : (metadata level fileId v).edgeCount ≠ 0 := by
    have hlen : (metadata level fileId v).edgeCount = v.edges.length := length_stored v
    rw [hlen]
    exact fun h => hne (List.length_eq_zero_iff.mp h)
  have hbodies : readAt (file level fileId v) (bodiesOffset v)
      (v.edges.length * diskEdgeBodyLen) =
        ((stored v).map DiskEdgeBody.ofRecord).flatMap DiskEdgeBody.encode := by
    have hread := readAt_bodies level fileId v (file level fileId v).length 0 v.edges.length
    have hall : (((stored v).map DiskEdgeBody.ofRecord).take v.edges.length) =
        (stored v).map DiskEdgeBody.ofRecord :=
      List.take_of_length_le (by rw [List.length_map, length_stored])
    rw [prefixOf_length, Nat.zero_mul, Nat.add_zero, List.drop_zero, hall,
      List.take_of_length_le] at hread
    · exact hread
    · rw [length_flatMap_const DiskEdgeBody.length_encode, List.length_map, length_stored,
        length_file]
      omega
  have hheader : (segment level fileId v).header.bodiesLen = v.edges.length * diskEdgeBodyLen :=
    congrArg (· * diskEdgeBodyLen) (length_stored v)
  have hcollect := collectEdges_eq v (offsets v) fun _ ho => ho
  have htile : (offsets v).flatMap (fun o => (stored v).filter fun e => e.src = o.src) = stored v :=
    (List.flatMap_congr fun o ho => (CsrWriter.slice_edgeOffsets 0
      (CsrWriter.pairwise_src_sortByKey v.edges) o ho).symm).trans
        (CsrWriter.flatMap_slice_edgeOffsets 0 (stored v))
  rw [htile] at hcollect
  rw [readAllEdges, if_neg hcount, readMetadataFromDisk_file]
  have hoffset : (segment level fileId v).header.bodiesOffset = bodiesOffset v := rfl
  simp only [CachedCsrMetadata.new, bind, Except.bind, hheader, hoffset, hbodies, hcollect]

/-- A decoded header says what the metadata of the segment says. -/
structure HeaderAgrees (h : CsrHeader) (m : CsrSegmentMeta) : Prop where
  level : h.level = m.level
  fileId : h.fileId = m.fileId
  srcLabel : h.srcLabel = m.srcLabel
  edgeTypePartition : h.edgeTypePartition = m.edgeTypePartition
  minSrc : h.minSrc = m.minSrc
  maxSrc : h.maxSrc = m.maxSrc
  minTs : h.minTs = m.minTs
  maxTs : h.maxTs = m.maxTs
  edgeBodyCount : h.edgeBodyCount = m.edgeCount
  edgeOffsetCount : h.edgeOffsetCount = m.uniqueSrcCount

/-- **A segment survives the way through its bytes.** A scan returns the edges in their stable order,
a lookup of any source the edges of that source, the decoded table is strictly ascending and tiles the
edges, and the decoded header agrees with the metadata, whether it comes from the cache or from
disk. -/
theorem writeSegment_roundTrip (hne : v.edges ≠ []) (cached : Option CachedCsrMetadata)
    (hcached : ∀ md, cached = some md → readMetadataFromDisk (file level fileId v) = .ok md) :
    readAllEdges (file level fileId v) (metadata level fileId v) =
        .ok (sortByKey EdgeRecord.versionKey v.edges) ∧
      (∀ src, getNeighbors (file level fileId v) cached (metadata level fileId v) src =
        .ok ((sortByKey EdgeRecord.versionKey v.edges).filter fun e => e.src = src)) ∧
      ∃ md, metadataFor (file level fileId v) cached = .ok md ∧
        readOffsets (file level fileId v) cached = .ok md.offsets ∧
        (md.offsets.Pairwise fun a b => a.src < b.src) ∧
        CsrWriter.Tiles 0 md.offsets v.edges.length ∧
        HeaderAgrees md.header (metadata level fileId v) := by
  have hmetadata := metadataFor_file level fileId v hcached fun _ => rfl
  have htiles := CsrWriter.tiles_edgeOffsets 0 (stored v)
  rw [length_stored, Nat.zero_add] at htiles
  refine ⟨readAllEdges_file level fileId v hne, getNeighbors_file level fileId v hcached, _,
    hmetadata, ?_, ?_, htiles, ?_⟩
  · rw [readOffsets, hmetadata]
    rfl
  · exact CsrWriter.pairwise_edgeOffsets 0 (CsrWriter.pairwise_src_sortByKey v.edges)
  · exact ⟨rfl, rfl, rfl, rfl, rfl, rfl, rfl, rfl, rfl, CsrWriter.length_edgeOffsets 0 (stored v)⟩

/-- Three edges of two sources, one of them twice. -/
def smallEdges : EdgeVec where
  edges := [EdgeRecord.insert 7 2 (-1) 5, EdgeRecord.delete 3 4 1 9, EdgeRecord.insert 7 2 (-1) 5]
  length_le := by decide

theorem writeSegment_roundTrip_small :
    readAllEdges (file 1 42 smallEdges) (metadata 1 42 smallEdges) =
        .ok (sortByKey EdgeRecord.versionKey smallEdges.edges) ∧
      (∀ src, getNeighbors (file 1 42 smallEdges) none (metadata 1 42 smallEdges) src =
        .ok ((sortByKey EdgeRecord.versionKey smallEdges.edges).filter fun e => e.src = src)) ∧
      ∃ md, metadataFor (file 1 42 smallEdges) none = .ok md ∧
        readOffsets (file 1 42 smallEdges) none = .ok md.offsets ∧
        (md.offsets.Pairwise fun a b => a.src < b.src) ∧
        CsrWriter.Tiles 0 md.offsets smallEdges.edges.length ∧
        HeaderAgrees md.header (metadata 1 42 smallEdges) :=
  writeSegment_roundTrip 1 42 smallEdges (by decide) none nofun

/-! ## A file cut short -/

/-- A read of a damaged file returns `Err`, or what it returns on the complete file. -/
def Unharmed {α : Type} (damaged complete : Except ReadFailure α) : Prop :=
  damaged = .error .error ∨ damaged = complete

/-- No reader answers wrongly on the first `cut` bytes of the file. -/
structure TruncationSafe (cached : Option CachedCsrMetadata) : Prop where
  neighbors : ∀ src, Unharmed
    (getNeighbors (prefixOf level fileId v cut) cached (metadata level fileId v) src)
    (getNeighbors (file level fileId v) cached (metadata level fileId v) src)
  edges : Unharmed (readAllEdges (prefixOf level fileId v cut) (metadata level fileId v))
    (readAllEdges (file level fileId v) (metadata level fileId v))
  offsets : Unharmed (readOffsets (prefixOf level fileId v cut) cached)
    (readOffsets (file level fileId v) cached)

theorem offsets_ne_nil (hne : v.edges ≠ []) : offsets v ≠ [] := by
  intro hnil
  have hlen := congrArg List.length (CsrWriter.edgeOffsets_eq_nil hnil)
  rw [length_stored] at hlen
  exact hne (List.length_eq_zero_iff.mp hlen)

/-- Searching the table for the source of an entry finds that entry. -/
theorem findOffset_self {o : EdgeOffset} (ho : o ∈ offsets v) :
    findOffsetInOffsets (offsets v) o.src = some o := by
  have hascending := CsrWriter.pairwise_edgeOffsets 0 (CsrWriter.pairwise_src_sortByKey v.edges)
  have hinj := injOn_of_ascending hascending
  cases hfind : findOffsetInOffsets (offsets v) o.src with
  | none =>
      rw [findOffsetInOffsets, List.find?_eq_none] at hfind
      exact absurd (beq_self_eq_true o.src) (hfind o ho)
  | some o' =>
      obtain ⟨ho', hsrc⟩ := CsrReader.mem_of_findOffset hfind
      rw [hinj ho' ho hsrc]

/-- The source of an entry is not filtered out by the metadata. -/
theorem src_in_range {o : EdgeOffset} (ho : o ∈ offsets v) :
    ¬ (o.src < (metadata level fileId v).minSrc ∨ (metadata level fileId v).maxSrc < o.src ∨
      (metadata level fileId v).edgeCount = 0) := by
  intro hrange
  have hsorted := CsrWriter.pairwise_src_sortByKey v.edges
  obtain ⟨e, he, hsrc⟩ := (CsrWriter.exists_mem_edgeOffsets 0).mp ⟨o, ho, rfl⟩
  have hnil := CsrWriter.filter_eq_nil_of_range hsorted hrange
  have hmem : e ∈ (stored v).filter fun e => e.src = o.src :=
    List.mem_filter.mpr ⟨he, decide_eq_true hsrc⟩
  exact absurd (hnil ▸ hmem) List.not_mem_nil

/-- **With the metadata of the complete file, a lookup in a shorter one loses records**: those of the
last source that are no longer there. -/
theorem getNeighbors_loses (hne : v.edges ≠ []) (hcut : cut < (file level fileId v).length)
    {cached : Option CachedCsrMetadata}
    (hmetadata : metadataFor (prefixOf level fileId v cut) cached =
      .ok (CachedCsrMetadata.new (segment level fileId v).header (offsets v))) :
    ∃ src edges, getNeighbors (prefixOf level fileId v cut) cached (metadata level fileId v) src =
        .ok edges ∧
      edges.length < ((stored v).filter fun e => e.src = src).length := by
  obtain ⟨o, ho, hlast⟩ :=
    (CsrWriter.tiles_edgeOffsets 0 (stored v)).exists_last (offsets_ne_nil v hne)
  rw [length_stored, Nat.zero_add] at hlast
  have hpos := CsrWriter.edgeCount_pos 0 (CsrWriter.pairwise_src_sortByKey v.edges) o ho
  have hget := getNeighbors_of_metadata level fileId v hmetadata o.src
  rw [if_neg (src_in_range level fileId v ho), findOffset_self v ho] at hget
  refine ⟨o.src, _, hget, ?_⟩
  have hfull : ((stored v).filter fun e => e.src = o.src).length = o.edgeCount := by
    rw [← edgesOf_offset v ho, List.length_map, List.length_take, List.length_drop,
      List.length_map, length_stored]
    omega
  have hshort : (cut - (bodiesOffset v + o.firstEdgeIdx * diskEdgeBodyLen)) / diskEdgeBodyLen <
      o.edgeCount := by
    rw [Nat.div_lt_iff_lt_mul (by decide)]
    rw [length_file, ← hlast, Nat.add_mul] at hcut
    have hbody : 0 < o.edgeCount * diskEdgeBodyLen := Nat.mul_pos hpos (by decide)
    omega
  rw [hfull, List.length_map, readBodies_take, List.length_take]
  exact lt_of_le_of_lt (min_le_left _ _) hshort

/-- **A truncated file is noticed iff** nothing is cached and the cut is inside the header. -/
theorem truncation_safe_iff (hne : v.edges ≠ []) (hcut : cut < (file level fileId v).length)
    (cached : Option CachedCsrMetadata)
    (hcached : ∀ md, cached = some md → readMetadataFromDisk (file level fileId v) = .ok md) :
    TruncationSafe level fileId v cut cached ↔ cached = none ∧ cut < csrHeaderLen := by
  constructor
  · intro h
    -- whoever has the complete metadata loses records
    have hlose : metadataFor (prefixOf level fileId v cut) cached ≠
        .ok (CachedCsrMetadata.new (segment level fileId v).header (offsets v)) := by
      intro hmetadata
      obtain ⟨src, edges, hget, hlt⟩ :=
        getNeighbors_loses level fileId v cut hne hcut hmetadata
      rcases h.neighbors src with herror | hsame
      · rw [hget] at herror
        exact absurd herror nofun
      · rw [hget, getNeighbors_file level fileId v hcached, Except.ok.injEq] at hsame
        rw [hsame] at hlt
        exact lt_irrefl _ hlt
    cases cached with
    | some md =>
        have hmd := hcached md rfl
        rw [readMetadataFromDisk_file, Except.ok.injEq] at hmd
        exact absurd (congrArg Except.ok hmd.symm) hlose
    | none =>
        refine ⟨rfl, not_le.mp fun hheader => ?_⟩
        have hread := readMetadataFromDisk_take level fileId v cut
        rw [if_neg (not_lt.mpr hheader)] at hread
        have hoffsets := h.offsets
        unfold readOffsets metadataFor at hoffsets
        rw [hread, readMetadataFromDisk_file] at hoffsets
        rcases hoffsets with herror | hsame
        · exact absurd herror nofun
        · have htake : (offsets v).take ((cut - csrHeaderLen) / edgeOffsetLen) = offsets v :=
            Except.ok.inj hsame
          rw [htake] at hread
          exact hlose hread
  · rintro ⟨rfl, hheader⟩
    have hread := readMetadataFromDisk_take level fileId v cut
    rw [if_pos hheader] at hread
    refine ⟨fun src => ?_, ?_, ?_⟩
    · unfold getNeighbors
      split
      · exact Or.inr rfl
      · refine Or.inl ?_
        rw [metadataFor, hread]
        rfl
    · unfold readAllEdges
      split
      · exact Or.inr rfl
      · refine Or.inl ?_
        rw [hread]
        rfl
    · refine Or.inl ?_
      rw [readOffsets, metadataFor, hread]
      rfl

/-- A file of one edge. -/
def oneEdge : EdgeVec where
  edges := [EdgeRecord.insert 1 2 3 4]
  length_le := by decide

theorem truncation_safe_iff_header :
    TruncationSafe 0 1 oneEdge 100 none ↔ (none : Option CachedCsrMetadata) = none ∧
      100 < csrHeaderLen :=
  truncation_safe_iff 0 1 oneEdge 100 (by decide) (by rw [length_file]; decide) none nofun

/-- Without its last byte the file of one edge still has a readable table: a lookup returns no edge
and a scan slices out of range. -/
theorem truncated_answers :
    getNeighbors (prefixOf 0 1 oneEdge 183) none (metadata 0 1 oneEdge) 1 = .ok [] ∧
      readAllEdges (prefixOf 0 1 oneEdge 183) (metadata 0 1 oneEdge) = .error .panic ∧
      getNeighbors (file 0 1 oneEdge) none (metadata 0 1 oneEdge) 1 =
        .ok [EdgeRecord.insert 1 2 3 4] := by
  refine ⟨?_, ?_, ?_⟩ <;> decide +kernel

/-- Not every truncation is noticed. -/
theorem truncation_unsafe :
    ¬ ∀ (level : LevelId) (fileId : UInt64) (v : EdgeVec) (cut : Nat), v.edges ≠ [] →
      cut < (file level fileId v).length → TruncationSafe level fileId v cut none := by
  intro h
  have hsafe := h 0 1 oneEdge 183 (by decide) (by rw [length_file]; decide)
  obtain ⟨hcut, -, hcomplete⟩ := truncated_answers
  rcases hsafe.neighbors 1 with herror | hsame
  · rw [hcut] at herror
    exact absurd herror nofun
  · rw [hcut, hcomplete] at hsame
    exact absurd hsame (by decide)

end CsrBytes

end LsmGraph
