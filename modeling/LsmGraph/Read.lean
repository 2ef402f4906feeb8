import LsmGraph.Csr.Reader
import LsmGraph.MemGraph
import LsmGraph.Merge
import LsmGraph.Version

/-! # Reading a version

The read paths of `graph.rs`, as functions of the parts they look at: the segment files, the
memgraphs, the pinned version and the index of the upper levels. A point lookup merges the memgraphs,
the `L0` files that pass the filter chain, and the files the index lists; a scan merges everything.
Both hand `mergeVisible` a list whose members are described by sets of records
(`getNeighborsTypedInternal_spec`, `scanEdges_spec`), so the filter chain skips no file that matters.
`buildIndex_spec` says that a rebuild lists, for each source, the upper files that hold it, each
once. -/

namespace LsmGraph

open KeyedSort ErrorState CsrReader

variable (files : StoreFiles) (heap : MemGraphId → MemGraph)

/-! ## The index of the upper levels -/

/-- `MultiLevelIndex`: a hash map from a source to files; absent sources have none. -/
abbrev MultiLevelIndex := VertexId → List CsrSegmentMeta

/-- `read_offsets(meta).await.unwrap_or_default()`. -/
def readOffsetsOrDefault (m : CsrSegmentMeta) : CsrM (List EdgeOffset) := fun cache =>
  match readOffsets files m cache with
  | .ok offsets cache => .ok offsets cache
  | .error _ cache => .ok [] cache

/-- Push the file under the source of every entry of its offset table. -/
def pushOffsets (m : CsrSegmentMeta) (offsets : List EdgeOffset) (entries : MultiLevelIndex) :
    MultiLevelIndex :=
  offsets.foldl
    (fun entries offset =>
      Function.update entries offset.src (entries offset.src ++ [m])) entries

/-- The loop of `rebuild_index` over the files of the upper levels. -/
def collectEntries : List CsrSegmentMeta → MultiLevelIndex → CsrM MultiLevelIndex
  | [], entries => pure entries
  | m :: ms, entries => do
      let offsets ← readOffsetsOrDefault files m
      collectEntries ms (pushOffsets m offsets entries)

/-- The index a rebuild computes from the version it pinned. -/
def buildIndex (v : Version) : CsrM MultiLevelIndex :=
  collectEntries files v.upperFiles fun _ => []

/-! ## Point lookups and scans -/

/-- What the memgraphs of a version hold of a source. -/
def memgraphEdgesForSrc (v : Version) (src : VertexId) : List EdgeRecord :=
  v.memgraphs.flatMap fun id => (heap id).getEdgesForSrc src

/-- The loop over `L0` with its filter chain: partition, source range, cached filter, file. -/
def l0Neighbors (src : VertexId) (edgeType : Option EdgeType) :
    List CsrSegmentMeta → CsrM (List EdgeRecord)
  | [] => pure []
  | m :: ms => do
      if !m.mayContainPartition src edgeType then l0Neighbors src edgeType ms
      else if src < m.minSrc ∨ m.maxSrc < src then l0Neighbors src edgeType ms
      else
        let cachedMayContain ← cachedMayContainSrc m src
        if cachedMayContain = some false then l0Neighbors src edgeType ms
        else
          let edges ← getNeighbors files m src
          let updates ← l0Neighbors src edgeType ms
          pure (edges ++ updates)

/-- The loop over the files the index lists. -/
def indexNeighbors (src : VertexId) : List CsrSegmentMeta → CsrM (List EdgeRecord)
  | [] => pure []
  | m :: ms => do
      let edges ← getNeighbors files m src
      let updates ← indexNeighbors src ms
      pure (edges ++ updates)

/-- Drop the records of other types, if one type is asked for. -/
def retainType (edgeType : Option EdgeType) (updates : List EdgeRecord) : List EdgeRecord :=
  match edgeType with
  | some edgeType => updates.filter fun edge => edge.edgeType == edgeType
  | none => updates

/-- `get_neighbors_typed_internal` on a pinned version and the index found installed. -/
def getNeighborsTypedInternal (v : Version) (index : MultiLevelIndex) (src : VertexId)
    (edgeType : Option EdgeType) (snapshot : SnapshotId) : CsrM (List EdgeRecord) := do
  let updates := memgraphEdgesForSrc heap v src
  let l0 ← l0Neighbors files src edgeType (v.level L0.toNat)
  let upper ← indexNeighbors files src (index src)
  let updates := updates ++ l0 ++ upper
  pure (mergeVisible (retainType edgeType updates) snapshot)

/-- Read files in full, one after the other. -/
def readAllFiles : List CsrSegmentMeta → Except EngineError (List EdgeRecord)
  | [] => .ok []
  | m :: ms =>
      match readAllEdges files m with
      | .error e => .error e
      | .ok edges =>
          match readAllFiles ms with
          | .error e => .error e
          | .ok updates => .ok (edges ++ updates)

/-- `scan_edges` on a pinned version. -/
def scanEdges (v : Version) (snapshot : SnapshotId) : Except EngineError (List EdgeRecord) :=
  let updates := v.memgraphs.flatMap fun id => (heap id).allEdgesSorted
  match readAllFiles files v.files with
  | .error e => .error e
  | .ok edges => .ok (mergeVisible (updates ++ edges) snapshot)

/-! ## The records behind a version -/

/-- The records of a file; an unreadable file has none. -/
def segmentRecords (m : CsrSegmentMeta) : List EdgeRecord :=
  match readAllEdges files m with
  | .ok edges => edges
  | .error _ => []

/-- The records of a list of files. -/
def fileRecords (ms : List CsrSegmentMeta) : Set EdgeRecord :=
  {r | ∃ m ∈ ms, r ∈ segmentRecords files m}

/-- The records in the memgraphs of a version. -/
def memRecords (v : Version) : Set EdgeRecord := {r | ∃ id ∈ v.memgraphs, (heap id).Stores r}

/-- Everything a version gives access to. -/
def versionRecords (v : Version) : Set EdgeRecord := memRecords heap v ∪ fileRecords files v.files

/-- The file was written by `writeSegment`. -/
def Readable (m : CsrSegmentMeta) : Prop := ∃ edges, Stored files m edges

/-- The record has the type asked for, if one was. -/
def TypeMatches (edgeType : Option EdgeType) (r : EdgeRecord) : Prop :=
  ∀ t, edgeType = some t → r.edgeType = t

/-- The upper files that hold a source, in the order of the levels. -/
def indexOf (v : Version) : MultiLevelIndex := fun src =>
  v.upperFiles.filter fun m => (segmentRecords files m).any fun e => e.src == src

variable {files heap} {S : Set CsrSegmentMeta} {cache : CsrMetadataCache} {m : CsrSegmentMeta}
  {ms : List CsrSegmentMeta} {src : VertexId} {edgeType : Option EdgeType}

theorem segmentRecords_of_stored {edges : List EdgeRecord} (h : Stored files m edges) :
    segmentRecords files m = sortByKey EdgeRecord.versionKey edges := by
  rw [segmentRecords, h.readAllEdges]

/-- Reading files in full returns their records. -/
theorem readAllFiles_spec (h : ∀ m ∈ ms, Readable files m) :
    readAllFiles files ms = .ok (ms.flatMap (segmentRecords files)) := by
  induction ms with
  | nil => rfl
  | cons m ms ih =>
      obtain ⟨edges, hm⟩ := h m List.mem_cons_self
      rw [readAllFiles, hm.readAllEdges, ih fun m hm => h m (List.mem_cons_of_mem _ hm)]
      simp only
      rw [List.flatMap_cons, segmentRecords_of_stored hm]

theorem mem_flatMap_segmentRecords {r : EdgeRecord} :
    r ∈ ms.flatMap (segmentRecords files) ↔ r ∈ fileRecords files ms :=
  List.mem_flatMap

/-- The records of two lists of files together. -/
theorem mem_fileRecords_or {l a b : List CsrSegmentMeta} (h : ∀ m, m ∈ l ↔ m ∈ a ∨ m ∈ b)
    {r : EdgeRecord} : r ∈ fileRecords files l ↔ r ∈ fileRecords files a ∨ r ∈ fileRecords files b := by
  simp only [fileRecords, Set.mem_ofPred_eq, h, or_and_right, exists_or]

/-- The records of a list of files with one more. -/
theorem mem_fileRecords_concat {r : EdgeRecord} :
    r ∈ fileRecords files (ms ++ [m]) ↔ r ∈ fileRecords files ms ∨ r ∈ segmentRecords files m := by
  rw [mem_fileRecords_or fun _ => List.mem_append]
  simp [fileRecords]

/-- **Scan.** A scan merges everything the version gives access to. -/
theorem scanEdges_spec (heap : MemGraphId → MemGraph) {v : Version}
    (hfiles : ∀ m ∈ v.files, Readable files m) (s : SnapshotId) :
    ∃ updates, scanEdges files heap v s = .ok (mergeVisible updates s) ∧
      ∀ r, r ∈ updates ↔ r ∈ versionRecords files heap v := by
  refine ⟨_, by rw [scanEdges, readAllFiles_spec hfiles], fun r => ?_⟩
  rw [List.mem_append, mem_flatMap_segmentRecords, List.mem_flatMap]
  simp only [MemGraph.mem_allEdgesSorted]
  rfl

/-! ## The filter chain skips nothing -/

/-- What `get_neighbors` reads from one file. -/
theorem getNeighbors_spec (src : VertexId) (hm : m ∈ S) (hread : Readable files m) (hagrees : Agrees files S cache) :
    ∃ cache', getNeighbors files m src cache =
        .ok ((segmentRecords files m).filter fun e => e.src = src) cache' ∧
      GrowsFrom files S cache cache' := by
  obtain ⟨edges, hstored⟩ := hread
  rw [segmentRecords_of_stored hstored]
  exact hstored.getNeighbors hm hagrees src

/-- **The `L0` loop** returns only records of the source, and every record of the source with the
type asked for. -/
theorem l0Neighbors_spec (src : VertexId) (edgeType : Option EdgeType)
    (hinj : Set.InjOn CsrSegmentMeta.fileId S)
    (hread : ∀ m ∈ ms, m ∈ S ∧ Readable files m) (hagrees : Agrees files S cache) :
    ∃ edges cache', l0Neighbors files src edgeType ms cache = .ok edges cache' ∧
      GrowsFrom files S cache cache' ∧
      (∀ r ∈ edges, r.src = src ∧ r ∈ fileRecords files ms) ∧
      ∀ r ∈ fileRecords files ms, r.src = src → TypeMatches edgeType r → r ∈ edges := by
  induction ms generalizing cache with
  | nil => exact ⟨[], cache, rfl, .refl, nofun, fun r ⟨_, hm, _⟩ => absurd hm List.not_mem_nil⟩
  | cons m ms ih =>
      obtain ⟨hm, edges, hstored⟩ := hread m List.mem_cons_self
      have hrest : ∀ m ∈ ms, m ∈ S ∧ Readable files m := fun m hm =>
        hread m (List.mem_cons_of_mem _ hm)
      have hmono : ∀ r, r ∈ fileRecords files ms → r ∈ fileRecords files (m :: ms) :=
        fun r ⟨m', hm', hr⟩ => ⟨m', List.mem_cons_of_mem _ hm', hr⟩
      -- a file may be skipped once no record of it matches
      have hskip : ∀ {cache₁}, GrowsFrom files S cache cache₁ →
          (∀ e ∈ edges, e.src = src → ¬ TypeMatches edgeType e) →
          ∃ out cache', l0Neighbors files src edgeType ms cache₁ = .ok out cache' ∧
            GrowsFrom files S cache cache' ∧
            (∀ r ∈ out, r.src = src ∧ r ∈ fileRecords files (m :: ms)) ∧
            ∀ r ∈ fileRecords files (m :: ms), r.src = src → TypeMatches edgeType r → r ∈ out := by
        intro cache₁ hgrows hnone
        obtain ⟨out, cache', hout, hgrows', hsound, hcomplete⟩ :=
          ih hrest (hgrows.agrees hagrees hinj)
        refine ⟨out, cache', hout, hgrows.trans hgrows', fun r hr => ?_, fun r hr hsrc htype => ?_⟩
        · exact ⟨(hsound r hr).1, hmono r (hsound r hr).2⟩
        · obtain ⟨m', hm', hr⟩ := hr
          rcases List.mem_cons.mp hm' with rfl | hm'
          · rw [segmentRecords_of_stored hstored, mem_sortByKey] at hr
            exact absurd htype (hnone r hr hsrc)
          · exact hcomplete r ⟨m', hm', hr⟩ hsrc htype
      rw [l0Neighbors]
      by_cases hpartition : m.mayContainPartition src edgeType = true
      · rw [if_neg (by simp [hpartition])]
        by_cases hrange : src < m.minSrc ∨ m.maxSrc < src
        · rw [if_pos hrange]
          refine hskip .refl fun e he hsrc _ => ?_
          have hbounds := hstored.src_mem_range he
          rw [hsrc] at hbounds
          exact hrange.elim (absurd hbounds.1 ·.not_ge) (absurd hbounds.2 ·.not_ge)
        · rw [if_neg hrange]
          obtain ⟨answer, cache₁, hanswer, hgrows, hfilter⟩ :=
            hstored.cachedMayContainSrc hm hagrees src
          rw [bind_of_ok hanswer]
          by_cases hdenied : answer = some false
          · rw [if_pos hdenied]
            exact hskip hgrows fun e he hsrc _ => hfilter e he hsrc hdenied
          · rw [if_neg hdenied]
            obtain ⟨cache₂, hneighbors, hgrows₂⟩ := getNeighbors_spec src hm
              ⟨edges, hstored⟩ (hgrows.agrees hagrees hinj)
            obtain ⟨out, cache', hout, hgrows', hsound, hcomplete⟩ :=
              ih hrest ((hgrows.trans hgrows₂).agrees hagrees hinj)
            refine ⟨_, cache', by rw [bind_of_ok hneighbors, bind_of_ok hout, pure_apply],
              (hgrows.trans hgrows₂).trans hgrows', fun r hr => ?_, fun r hr hsrc htype => ?_⟩
            · rcases List.mem_append.mp hr with hr | hr
              · rw [List.mem_filter, decide_eq_true_iff] at hr
                exact ⟨hr.2, m, List.mem_cons_self, hr.1⟩
              · exact ⟨(hsound r hr).1, hmono r (hsound r hr).2⟩
            · obtain ⟨m', hm', hr⟩ := hr
              rcases List.mem_cons.mp hm' with rfl | hm'
              · exact List.mem_append_left _ (List.mem_filter.mpr ⟨hr, decide_eq_true hsrc⟩)
              · exact List.mem_append_right _ (hcomplete r ⟨m', hm', hr⟩ hsrc htype)
      · rw [if_pos (by simp [hpartition])]
        refine hskip .refl fun e he hsrc htype => hpartition ?_
        exact hsrc ▸ hstored.mayContainPartition he htype

/-- The loop over the indexed files returns their records of the source. -/
theorem indexNeighbors_spec (src : VertexId) (hinj : Set.InjOn CsrSegmentMeta.fileId S)
    (hread : ∀ m ∈ ms, m ∈ S ∧ Readable files m) (hagrees : Agrees files S cache) :
    ∃ edges cache', indexNeighbors files src ms cache = .ok edges cache' ∧
      GrowsFrom files S cache cache' ∧
      ∀ r, r ∈ edges ↔ r.src = src ∧ r ∈ fileRecords files ms := by
  induction ms generalizing cache with
  | nil => exact ⟨[], cache, rfl, .refl, fun r => by simp [fileRecords]⟩
  | cons m ms ih =>
      obtain ⟨hm, hreadable⟩ := hread m List.mem_cons_self
      obtain ⟨cache₁, hneighbors, hgrows⟩ := getNeighbors_spec src hm hreadable hagrees
      obtain ⟨out, cache', hout, hgrows', hmem⟩ :=
        ih (fun m hm => hread m (List.mem_cons_of_mem _ hm)) (hgrows.agrees hagrees hinj)
      refine ⟨_, cache', by rw [indexNeighbors, bind_of_ok hneighbors, bind_of_ok hout, pure_apply],
        hgrows.trans hgrows', fun r => ?_⟩
      rw [List.mem_append, hmem, List.mem_filter, decide_eq_true_iff]
      simp only [fileRecords, Set.mem_ofPred_eq, List.exists_mem_cons_iff, and_or_left, and_comm]

/-- What the memgraphs hold of a source. -/
theorem mem_memgraphEdgesForSrc {v : Version} (hheap : ∀ id ∈ v.memgraphs, (heap id).WF)
    {r : EdgeRecord} :
    r ∈ memgraphEdgesForSrc heap v src ↔ r.src = src ∧ r ∈ memRecords heap v := by
  rw [memgraphEdgesForSrc, List.mem_flatMap]
  constructor
  · rintro ⟨id, hid, hr⟩
    obtain ⟨hstores, hsrc⟩ := (MemGraph.mem_getEdgesForSrc (hheap id hid)).mp hr
    exact ⟨hsrc, id, hid, hstores⟩
  · rintro ⟨hsrc, id, hid, hstores⟩
    exact ⟨id, hid, (MemGraph.mem_getEdgesForSrc (hheap id hid)).mpr ⟨hstores, hsrc⟩⟩

theorem mem_retainType {updates : List EdgeRecord} {r : EdgeRecord} :
    r ∈ retainType edgeType updates ↔ r ∈ updates ∧ TypeMatches edgeType r := by
  cases edgeType with
  | none => simp [retainType, TypeMatches]
  | some t => simp [retainType, TypeMatches]

/-- **Point lookup.** A lookup merges the records of the source, with the type asked for, that are in
the memgraphs, in the `L0` files or in the files the index lists for the source. -/
theorem getNeighborsTypedInternal_spec (edgeType : Option EdgeType) {v : Version}
    {index : MultiLevelIndex}
    (hinj : Set.InjOn CsrSegmentMeta.fileId S) (hheap : ∀ id ∈ v.memgraphs, (heap id).WF)
    (hl0 : ∀ m ∈ v.level 0, m ∈ S ∧ Readable files m)
    (hindex : ∀ m ∈ index src, m ∈ S ∧ Readable files m) (hagrees : Agrees files S cache)
    (s : SnapshotId) :
    ∃ updates cache', getNeighborsTypedInternal files heap v index src edgeType s cache =
        .ok (mergeVisible updates s) cache' ∧
      GrowsFrom files S cache cache' ∧
      ∀ r, r ∈ updates ↔ (r.src = src ∧ TypeMatches edgeType r) ∧
        (r ∈ memRecords heap v ∨ r ∈ fileRecords files (v.level 0) ∨
          r ∈ fileRecords files (index src)) := by
  obtain ⟨l0, cache₁, hl0run, hgrows, hsound, hcomplete⟩ :=
    l0Neighbors_spec src edgeType hinj hl0 hagrees
  obtain ⟨upper, cache', hrun, hgrows', hupper⟩ :=
    indexNeighbors_spec src hinj hindex (hgrows.agrees hagrees hinj)
  refine ⟨retainType edgeType (memgraphEdgesForSrc heap v src ++ l0 ++ upper), cache', ?_,
    hgrows.trans hgrows', fun r => ?_⟩
  · rw [getNeighborsTypedInternal]
    exact (bind_of_ok hl0run).trans ((bind_of_ok hrun).trans (pure_apply _))
  · rw [mem_retainType, List.mem_append, List.mem_append, mem_memgraphEdgesForSrc hheap, hupper]
    constructor
    · rintro ⟨(⟨hsrc, hr⟩ | hr) | ⟨hsrc, hr⟩, htype⟩
      · exact ⟨⟨hsrc, htype⟩, Or.inl hr⟩
      · exact ⟨⟨(hsound r hr).1, htype⟩, Or.inr (Or.inl (hsound r hr).2)⟩
      · exact ⟨⟨hsrc, htype⟩, Or.inr (Or.inr hr)⟩
    · rintro ⟨⟨hsrc, htype⟩, hr | hr | hr⟩
      · exact ⟨Or.inl (Or.inl ⟨hsrc, hr⟩), htype⟩
      · exact ⟨Or.inl (Or.inr (hcomplete r hr hsrc htype)), htype⟩
      · exact ⟨Or.inr ⟨hsrc, hr⟩, htype⟩

/-! ## Rebuilding the index -/

/-- Pushing a table with distinct sources adds the file once under each of them. -/
theorem pushOffsets_apply {offsets : List EdgeOffset} {entries : MultiLevelIndex}
    (hdistinct : offsets.Pairwise fun a b => a.src ≠ b.src) (src : VertexId) :
    pushOffsets m offsets entries src =
      entries src ++ if ∃ o ∈ offsets, o.src = src then [m] else [] := by
  induction offsets generalizing entries with
  | nil => simp [pushOffsets]
  | cons o offsets ih =>
      obtain ⟨ho, hoffsets⟩ := List.pairwise_cons.mp hdistinct
      rw [pushOffsets, List.foldl_cons, ← pushOffsets, ih hoffsets]
      by_cases hsrc : o.src = src
      · subst hsrc
        have hnone : ¬ ∃ o' ∈ offsets, o'.src = o.src := fun ⟨o', ho', heq⟩ => ho o' ho' heq.symm
        rw [Function.update_self, if_neg hnone, List.append_nil, if_pos ⟨o, List.mem_cons_self, rfl⟩]
      · rw [Function.update_of_ne (Ne.symm hsrc)]
        simp [hsrc]

/-- The table of a stored segment has an entry for exactly the sources it holds. -/
theorem readOffsetsOrDefault_spec (hm : m ∈ S) (hread : Readable files m)
    (hagrees : Agrees files S cache) :
    ∃ offsets cache', readOffsetsOrDefault files m cache = .ok offsets cache' ∧
      GrowsFrom files S cache cache' ∧ (offsets.Pairwise fun a b => a.src ≠ b.src) ∧
      ∀ src, (∃ o ∈ offsets, o.src = src) ↔
        ((segmentRecords files m).any fun e => e.src == src) = true := by
  obtain ⟨edges, hstored⟩ := hread
  obtain ⟨cache', hoffsets, hgrows⟩ := hstored.readOffsets hm hagrees
  refine ⟨_, cache', by rw [readOffsetsOrDefault, hoffsets], hgrows, ?_, fun src => ?_⟩
  · exact (CsrWriter.pairwise_edgeOffsets 0 (CsrWriter.pairwise_src_sortByKey edges)).imp ne_of_lt
  · rw [CsrWriter.exists_mem_edgeOffsets, segmentRecords_of_stored hstored, List.any_eq_true]
    simp only [beq_iff_eq]

/-- The table of a file, pushed before the files after it, puts the file in front of them. -/
theorem pushOffsets_append {offsets : List EdgeOffset} {entries : MultiLevelIndex}
    (hdistinct : offsets.Pairwise fun a b => a.src ≠ b.src)
    (hholds : ∀ src, (∃ o ∈ offsets, o.src = src) ↔
      ((segmentRecords files m).any fun e => e.src == src) = true)
    (ms : List CsrSegmentMeta) (src : VertexId) :
    (pushOffsets m offsets entries src ++
        ms.filter fun m => (segmentRecords files m).any fun e => e.src == src) =
      entries src ++
        (m :: ms).filter fun m => (segmentRecords files m).any fun e => e.src == src := by
  rw [pushOffsets_apply hdistinct, List.append_assoc, List.filter_cons]
  simp only [hholds]
  split <;> rfl

/-- The loop of a rebuild, from the entries it has made so far. -/
theorem collectEntries_spec (hinj : Set.InjOn CsrSegmentMeta.fileId S) {ms : List CsrSegmentMeta}
    (entries : MultiLevelIndex) (hread : ∀ m ∈ ms, m ∈ S ∧ Readable files m)
    (hagrees : Agrees files S cache) :
    ∃ cache', collectEntries files ms entries cache =
        .ok (fun src => entries src ++
          ms.filter fun m => (segmentRecords files m).any fun e => e.src == src) cache' ∧
      GrowsFrom files S cache cache' := by
  induction ms generalizing entries cache with
  | nil =>
      refine ⟨cache, ?_, .refl⟩
      rw [collectEntries, pure_apply]
      simp
  | cons m ms ih =>
      obtain ⟨hm, hreadable⟩ := hread m List.mem_cons_self
      obtain ⟨offsets, cache₁, hoffsets, hgrows, hdistinct, hholds⟩ :=
        readOffsetsOrDefault_spec hm hreadable hagrees
      obtain ⟨cache', hrun, hgrows'⟩ := ih (pushOffsets m offsets entries)
        (fun m hm => hread m (List.mem_cons_of_mem _ hm)) (hgrows.agrees hagrees hinj)
      refine ⟨cache', ?_, hgrows.trans hgrows'⟩
      rw [collectEntries, bind_of_ok hoffsets, hrun]
      exact congrArg (EStateM.Result.ok · cache')
        (funext fun src => pushOffsets_append hdistinct hholds ms src)

/-- **Rebuild.** On readable files a rebuild computes, for each source, the upper files that hold it,
each listed as often as the version lists it. -/
theorem buildIndex_spec {v : Version} (hinj : Set.InjOn CsrSegmentMeta.fileId S)
    (hread : ∀ m ∈ v.upperFiles, m ∈ S ∧ Readable files m) (hagrees : Agrees files S cache) :
    ∃ cache', buildIndex files v cache = .ok (indexOf files v) cache' ∧
      GrowsFrom files S cache cache' := by
  obtain ⟨cache', hrun, hgrows⟩ := collectEntries_spec hinj (fun _ => []) hread hagrees
  exact ⟨cache', hrun, hgrows⟩

/-- A file the index lists is an upper file that holds the source. -/
theorem mem_indexOf {v : Version} :
    m ∈ indexOf files v src ↔ m ∈ v.upperFiles ∧ ∃ e ∈ segmentRecords files m, e.src = src := by
  rw [indexOf, List.mem_filter, List.any_eq_true]
  simp only [beq_iff_eq]

end LsmGraph
