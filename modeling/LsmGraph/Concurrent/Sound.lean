import LsmGraph.Concurrent.Steps

/-! # What holds of the concurrent engine

`Sys.Sound x K` says that everybody who works on the engine sees the same files: those of `K` are
readable, have distinct ids and are decoded correctly wherever they are cached; every version
somebody has pinned consists of them; and a job has written, or is about to write, what covers its
source. The `Ledger` part keeps the books on records: no two of them clash, each stored one was
inserted, and each inserted one is in a memgraph or was recovered. `Sys.Roles` says who works for
whom. Both hold in every state reached (`sound_of_reaches`), whatever the schedule and the faults. -/

namespace LsmGraph

open KeyedSort ErrorState CsrReader Transition

/-! ## The engine -/

namespace Engine

variable {e e' e'' : Engine} {K K' K'' : Set CsrSegmentMeta} {m : CsrSegmentMeta}

/-- The memgraph was rotated out. -/
def Frozen (e : Engine) (m : MemGraphId) : Prop := m < e.nextMemGraphId ∧ m ≠ e.active

/-- The files `K` are what the engine takes them for, and it refers to no others. -/
structure Keeps (e : Engine) (K : Set CsrSegmentMeta) : Prop where
  fault_eq : e.fault = none
  readable : ∀ m ∈ K, Readable e.files m
  fileId_lt : ∀ m ∈ K, m.fileId < e.nextFileId
  injOn : Set.InjOn CsrSegmentMeta.fileId K
  cached_mem : ∀ id metadata, e.metadataCache.map.lookup id = some metadata →
    ∃ m ∈ K, m.fileId = id
  agrees : Agrees e.files K e.metadataCache
  live_mem : ∀ m ∈ e.liveFiles, m ∈ K
  index_mem : ∀ src, ∀ m ∈ e.index src, m ∈ K
  placed : e.current.Placed K
  memgraph : ∀ id, (e.heap id).WF
  active_lt : e.active < e.nextMemGraphId

/-- What everybody else may rely on when somebody takes a step: known files and frozen memgraphs stay
as they are. -/
structure Extends (e e' : Engine) (K K' : Set CsrSegmentMeta) : Prop where
  known : K ⊆ K'
  files_eq : ∀ m ∈ K, e'.files m.level m.fileId = e.files m.level m.fileId
  nextFileId_le : e.nextFileId ≤ e'.nextFileId
  frozen : ∀ m, e.Frozen m → e'.Frozen m ∧ e'.heap m = e.heap m

/-- A step that leaves the files, the memgraphs and both counters alone. -/
theorem Extends.of_same (hfiles : e'.files = e.files) (hheap : e'.heap = e.heap)
    (hnextFile : e'.nextFileId = e.nextFileId) (hnextMem : e'.nextMemGraphId = e.nextMemGraphId)
    (hactive : e'.active = e.active) : Extends e e' K K := by
  refine ⟨subset_rfl, fun m _ => by rw [hfiles], hnextFile.ge, fun m hm => ⟨?_, by rw [hheap]⟩⟩
  rwa [Frozen, hnextMem, hactive]

theorem Extends.refl (e : Engine) (K : Set CsrSegmentMeta) : Extends e e K K :=
  .of_same rfl rfl rfl rfl rfl

theorem Extends.trans (h : Extends e e' K K') (h' : Extends e' e'' K' K'') :
    Extends e e'' K K'' where
  known := h.known.trans h'.known
  files_eq m hm := (h'.files_eq m (h.known hm)).trans (h.files_eq m hm)
  nextFileId_le := h.nextFileId_le.trans h'.nextFileId_le
  frozen m hm := by
    obtain ⟨hm', hheap⟩ := h.frozen m hm
    obtain ⟨hm'', hheap'⟩ := h'.frozen m hm'
    exact ⟨hm'', hheap'.trans hheap⟩

/-- Known files keep their records. -/
theorem Extends.segmentRecords_eq (h : Extends e e' K K') (hm : m ∈ K) :
    segmentRecords e'.files m = segmentRecords e.files m :=
  segmentRecords_congr (h.files_eq m hm)

theorem Extends.fileRecords_eq (h : Extends e e' K K') {ms : List CsrSegmentMeta}
    (hms : ∀ m ∈ ms, m ∈ K) : fileRecords e'.files ms = fileRecords e.files ms :=
  fileRecords_congr fun m hm => h.files_eq m (hms m hm)

end Engine

/-! ## Jobs -/

namespace Stage

/-- The segments that are not in a file yet. -/
def pending : Stage → List (List EdgeRecord)
  | .create segments _ => segments
  | .write _ segmentEdges segments _ => segmentEdges :: segments
  | .commit _ segments _ => segments
  | _ => []

/-- The files written, the last of which may still have to be committed. -/
def written : Stage → List CsrSegmentMeta
  | .create _ outputs => outputs
  | .write _ _ _ outputs => outputs
  | .commit m _ outputs => outputs ++ [m]
  | .delete _ outputs => outputs
  | .pin outputs => outputs
  | .publish _ outputs => outputs
  | _ => []

/-- The id of the file the job is about to write. -/
def reserved : Stage → Option FileId
  | .write fileId _ _ _ => some fileId
  | _ => none

/-- The version the job has pinned. -/
def version : Stage → Option Version
  | .publish old _ => some old
  | .install v => some v
  | _ => none

/-- The job has loaded its source and has not published yet. -/
def Unpublished : Stage → Prop
  | .load => False
  | .rebuild => False
  | .install _ => False
  | _ => True

end Stage

/-- The records a job is about. -/
def JobKind.source (e : Engine) : JobKind → Set EdgeRecord
  | .flush memgraph => {r | (e.heap memgraph).Stores r}
  | .full l0Files l1Files => fileRecords e.files (l0Files ++ l1Files)
  | .target selectedL0 selectedL1 => fileRecords e.files (selectedL0 ++ selectedL1)

/-- The records a job has written or is about to write. -/
def Stage.data (files : StoreFiles) (stage : Stage) : Set EdgeRecord :=
  fileRecords files stage.written ∪ {r | r ∈ stage.pending.flatten}

/-- A job flushes a frozen memgraph, or merges known files of the two lowest levels. -/
def JobKind.Placed (e : Engine) (K : Set CsrSegmentMeta) : JobKind → Prop
  | .flush memgraph => e.Frozen memgraph
  | .full l0Files l1Files => l0Files ≠ [] ∧ (∀ m ∈ l0Files, m ∈ K ∧ m.level = L0) ∧
      ∀ m ∈ l1Files, m ∈ K ∧ m.level = L1
  | .target selectedL0 selectedL1 => selectedL0 ≠ [] ∧ (∀ m ∈ selectedL0, m ∈ K ∧ m.level = L0) ∧
      ∀ m ∈ selectedL1, m ∈ K ∧ m.level = L1

/-- What holds of a job between two of its steps. -/
structure Job.Sound (e : Engine) (K : Set CsrSegmentMeta) (kind : JobKind) (stage : Stage) : Prop where
  placed : kind.Placed e K
  written : ∀ m ∈ stage.written, m ∈ K ∧ m.level = kind.level
  version : ∀ v, stage.version = some v → v.Placed K
  reserved : ∀ id, stage.reserved = some id → id < e.nextFileId ∧ ∀ m ∈ K, m.fileId ≠ id
  nonempty : [] ∉ stage.pending
  data_sub : stage.data e.files ⊆ kind.source e
  covers : stage.Unpublished → Covers (stage.data e.files) (kind.source e)

section Jobs

variable {e e' : Engine} {K K' : Set CsrSegmentMeta} {kind : JobKind} {stage stage' : Stage}

theorem JobKind.Placed.inputs_mem (h : kind.Placed e K) : ∀ m ∈ kind.inputs, m ∈ K := by
  cases kind with
  | flush memgraph => exact fun _ hm => absurd hm List.not_mem_nil
  | full l0Files l1Files =>
      obtain ⟨-, h0, h1⟩ := h
      intro m hm
      exact (List.mem_append.mp hm).elim (fun hm => (h0 m hm).1) fun hm => (h1 m hm).1
  | target selectedL0 selectedL1 =>
      obtain ⟨-, h0, h1⟩ := h
      intro m hm
      exact (List.mem_append.mp hm).elim (fun hm => (h0 m hm).1) fun hm => (h1 m hm).1

theorem JobKind.Placed.mono (h : kind.Placed e K) (hext : e.Extends e' K K') : kind.Placed e' K' := by
  cases kind with
  | flush memgraph => exact (hext.frozen memgraph h).1
  | full l0Files l1Files =>
      obtain ⟨hne, h0, h1⟩ := h
      exact ⟨hne, fun m hm => ⟨hext.known (h0 m hm).1, (h0 m hm).2⟩,
        fun m hm => ⟨hext.known (h1 m hm).1, (h1 m hm).2⟩⟩
  | target selectedL0 selectedL1 =>
      obtain ⟨hne, h0, h1⟩ := h
      exact ⟨hne, fun m hm => ⟨hext.known (h0 m hm).1, (h0 m hm).2⟩,
        fun m hm => ⟨hext.known (h1 m hm).1, (h1 m hm).2⟩⟩

/-- Nobody changes what a job is about. -/
theorem JobKind.Placed.source_eq (h : kind.Placed e K) (hext : e.Extends e' K K') :
    kind.source e' = kind.source e := by
  cases kind with
  | flush memgraph =>
      show {r | (e'.heap memgraph).Stores r} = {r | (e.heap memgraph).Stores r}
      rw [(hext.frozen memgraph h).2]
  | full l0Files l1Files => exact hext.fileRecords_eq h.inputs_mem
  | target selectedL0 selectedL1 => exact hext.fileRecords_eq h.inputs_mem

theorem Job.Sound.data_eq (h : Job.Sound e K kind stage) (hext : e.Extends e' K K') :
    stage.data e'.files = stage.data e.files := by
  rw [Stage.data, Stage.data, hext.fileRecords_eq fun m hm => (h.written m hm).1]

/-- **A job is not disturbed by the others**, as long as nobody takes the id it has reserved. -/
theorem Job.Sound.mono (h : Job.Sound e K kind stage) (hext : e.Extends e' K K')
    (hreserved : ∀ id, stage.reserved = some id → ∀ m ∈ K', m.fileId ≠ id) :
    Job.Sound e' K' kind stage where
  placed := h.placed.mono hext
  written m hm := ⟨hext.known (h.written m hm).1, (h.written m hm).2⟩
  version v hv := (h.version v hv).mono hext.known
  reserved id hid := ⟨(h.reserved id hid).1.trans_le hext.nextFileId_le, hreserved id hid⟩
  nonempty := h.nonempty
  data_sub := by
    rw [h.data_eq hext, h.placed.source_eq hext]
    exact h.data_sub
  covers hstage := by
    rw [h.data_eq hext, h.placed.source_eq hext]
    exact h.covers hstage

/-- A job that goes on with the same data. -/
theorem Job.Sound.goOn (h : Job.Sound e K kind stage) (hunpublished : stage.Unpublished)
    (hwritten : stage'.written = stage.written) (hpending : stage'.pending = stage.pending)
    (hreserved : ∀ id, stage'.reserved = some id → id < e.nextFileId ∧ ∀ m ∈ K, m.fileId ≠ id)
    (hversion : ∀ v, stage'.version = some v → v.Placed K) : Job.Sound e K kind stage' where
  placed := h.placed
  written := hwritten ▸ h.written
  version := hversion
  reserved := hreserved
  nonempty := hpending ▸ h.nonempty
  data_sub := by
    rw [Stage.data, hwritten, hpending]
    exact h.data_sub
  covers _ := by
    rw [Stage.data, hwritten, hpending]
    exact h.covers hunpublished

/-- A job that has nothing to write, or nothing any more. -/
theorem Job.Sound.idle (hplaced : kind.Placed e K) (hwritten : stage.written = [])
    (hpending : stage.pending = []) (hreserved : stage.reserved = none)
    (hversion : ∀ v, stage.version = some v → v.Placed K) (hstage : ¬ stage.Unpublished) :
    Job.Sound e K kind stage where
  placed := hplaced
  written m hm := absurd (hwritten ▸ hm) List.not_mem_nil
  version := hversion
  reserved id hid := absurd (hreserved ▸ hid) nofun
  nonempty := by
    rw [hpending]
    exact List.not_mem_nil
  data_sub := by
    rw [Stage.data, hwritten, hpending]
    rintro r (⟨m, hm, -⟩ | hr)
    · exact absurd hm List.not_mem_nil
    · exact absurd hr List.not_mem_nil
  covers h := absurd h hstage

/-- A flush writes the records of its memgraph. -/
theorem JobKind.toWrite_flush {m : MemGraphId} {segments : List (List EdgeRecord)}
    (h : JobKind.toWrite e (.flush m) = .ok segments) :
    {r | r ∈ segments.flatten} = JobKind.source e (.flush m) := by
  unfold toWrite at h
  cases h
  ext r
  by_cases hempty : (e.heap m).allEdgesSorted = []
  · have hnone : r ∉ (e.heap m).allEdgesSorted := by
      rw [hempty]
      exact List.not_mem_nil
    simp only [hempty, if_true]
    exact iff_of_false List.not_mem_nil fun hr => hnone (MemGraph.mem_allEdgesSorted.mpr hr)
  · simp only [hempty, if_false]
    exact (perm_buildL0FlushSegments _ _).mem_iff.trans MemGraph.mem_allEdgesSorted

/-- **What a job is going to write** is of its source and covers it. -/
theorem JobKind.toWrite_spec (hkeeps : e.Keeps K) (hplaced : kind.Placed e K)
    (hcoh : Coherent (kind.source e)) (hts : ∀ r ∈ kind.source e, r.ts ≤ e.timestamp)
    {segments : List (List EdgeRecord)} (h : kind.toWrite e = .ok segments) :
    [] ∉ segments ∧ {r | r ∈ segments.flatten} ⊆ kind.source e ∧
      Covers {r | r ∈ segments.flatten} (kind.source e) := by
  -- a compaction merges the records of its inputs
  have hmerge : ∀ {inputs : List CsrSegmentMeta}, kind.source e = fileRecords e.files inputs →
      (∀ m ∈ inputs, m ∈ K) → inputs ≠ [] →
      readAllFiles e.files inputs = .ok (inputs.flatMap (segmentRecords e.files)) ∧
        ∀ merged, merged = mergeLatestRecords (inputs.flatMap (segmentRecords e.files)) e.timestamp true →
          merged ≠ [] ∧ {r | r ∈ merged} ⊆ kind.source e ∧ Covers {r | r ∈ merged} (kind.source e) := by
    intro inputs hsource hinputs hne
    rw [hsource] at hcoh hts ⊢
    have hset : {r | r ∈ inputs.flatMap (segmentRecords e.files)} = fileRecords e.files inputs :=
      Set.ext fun _ => mem_flatMap_segmentRecords
    refine ⟨readAllFiles_spec fun m hm => hkeeps.readable m (hinputs m hm), fun merged hmerged => ?_⟩
    have hcovers : Covers {r | r ∈ merged} (fileRecords e.files inputs) := by
      intro r hr
      rw [hmerged]
      exact covers_mergeLatestRecords (hset ▸ hcoh) r ⟨hset ▸ hr, hts r hr⟩
    refine ⟨fun hnil => ?_, fun r hr => ?_, hcovers⟩
    · obtain ⟨m, hm⟩ := List.exists_mem_of_ne_nil inputs hne
      obtain ⟨r, hr⟩ := (hkeeps.readable m (hinputs m hm)).exists_mem
      obtain ⟨r', hr', -⟩ := hcovers r ⟨m, hm, hr⟩
      rw [hnil] at hr'
      exact absurd hr' List.not_mem_nil
    · exact hset.le (mem_of_mem_mergeLatestRecords (hmerged ▸ hr)).1
  cases kind with
  | flush memgraph =>
      rw [toWrite_flush h]
      refine ⟨?_, subset_rfl, Versioned.Covers.refl _⟩
      unfold toWrite at h
      cases h
      by_cases hempty : (e.heap memgraph).allEdgesSorted = []
      · simp only [hempty, if_true]
        exact List.not_mem_nil
      · simp only [hempty, if_false]
        exact nil_notMem_buildL0FlushSegments _ hempty
  | full l0Files l1Files =>
      obtain ⟨hread, hmerged⟩ := hmerge rfl hplaced.inputs_mem
        (List.append_ne_nil_of_left_ne_nil hplaced.1 l1Files)
      simp only [toWrite, hread] at h
      cases h
      obtain ⟨hne, hsub, hcovers⟩ := hmerged _ rfl
      simp only [List.flatten_cons, List.flatten_nil, List.append_nil, List.mem_singleton]
      exact ⟨hne.symm, hsub, hcovers⟩
  | target selectedL0 selectedL1 =>
      obtain ⟨hread, hmerged⟩ := hmerge rfl hplaced.inputs_mem
        (List.append_ne_nil_of_left_ne_nil hplaced.1 selectedL1)
      simp only [toWrite, hread] at h
      cases h
      obtain ⟨-, hsub, hcovers⟩ := hmerged _ rfl
      have hset : ∀ edges : List EdgeRecord, {r | r ∈ (splitCompactionSegments edges
          e.config.segmentTargetBytes).flatten} = {r | r ∈ edges} := fun edges =>
        Set.ext fun r => (perm_splitCompactionSegments edges _).mem_iff
      rw [hset]
      exact ⟨nil_notMem_splitCompactionSegments _ _, hsub, hcovers⟩

/-- The version a job publishes has its files on their levels. -/
theorem Version.Placed.next {old : Version} {outputs : List CsrSegmentMeta} (hold : old.Placed K)
    (houtputs : ∀ m ∈ outputs, m ∈ K ∧ m.level = kind.level) : (kind.next old outputs).Placed K := by
  cases kind with
  | flush memgraph => exact hold.afterFlush houtputs
  | full l0Files l1Files => exact hold.afterFullCompaction houtputs
  | target selectedL0 selectedL1 => exact hold.afterTargetCompaction houtputs

end Jobs

/-! ## One step of a job -/

namespace Engine

variable {e e' : Engine} {K K' : Set CsrSegmentMeta} {m : CsrSegmentMeta}

/-- Memgraphs and clock are the same. -/
structure SameMemory (e e' : Engine) : Prop where
  heap_eq : e'.heap = e.heap
  nextMemGraphId_eq : e'.nextMemGraphId = e.nextMemGraphId
  active_eq : e'.active = e.active
  timestamp_eq : e'.timestamp = e.timestamp
  flushTasks_eq : e'.flushTasks = e.flushTasks
  config_eq : e'.config = e.config

/-- A read through the cache. -/
theorem Keeps.withCache (h : e.Keeps K) {cache : CsrMetadataCache}
    (hgrows : GrowsFrom e.files K e.metadataCache cache) :
    ({ e with metadataCache := cache } : Engine).Keeps K :=
  { h with
    cached_mem := fun id metadata hid => by
      rcases hgrows id metadata hid with hid | ⟨m, hm, hmid, -⟩
      · exact h.cached_mem id metadata hid
      · exact ⟨m, hm, hmid⟩
    agrees := hgrows.agrees h.agrees h.injOn }

/-- A file written under a reserved id is known from now on. -/
theorem Keeps.withFile (h : e.Keeps K) (level : LevelId) {fileId : FileId} {edges : List EdgeRecord}
    (hlt : fileId < e.nextFileId) (hnew : ∀ m ∈ K, m.fileId ≠ fileId) (hne : edges ≠ []) :
    (e.withFile level fileId (CsrWriter.writeSegment level fileId edges).1).Keeps
        (insert (CsrWriter.writeSegment level fileId edges).2 K) ∧
      e.Extends (e.withFile level fileId (CsrWriter.writeSegment level fileId edges).1) K
        (insert (CsrWriter.writeSegment level fileId edges).2 K) ∧
      Stored (e.withFile level fileId (CsrWriter.writeSegment level fileId edges).1).files
        (CsrWriter.writeSegment level fileId edges).2 edges := by
  have hstored : Stored (putFile e.files level fileId (CsrWriter.writeSegment level fileId edges).1)
      (CsrWriter.writeSegment level fileId edges).2 edges :=
    stored_writeSegment hne (if_pos ⟨rfl, rfl⟩)
  have hfiles : ∀ m ∈ K, putFile e.files level fileId
      (CsrWriter.writeSegment level fileId edges).1 m.level m.fileId = e.files m.level m.fileId :=
    fun m hm => if_neg fun heq => hnew m hm heq.2
  refine ⟨?_, ⟨Set.subset_insert _ _, hfiles, le_rfl, fun m hm => ⟨hm, rfl⟩⟩, hstored⟩
  refine
    { h with
      readable := ?_
      fileId_lt := ?_
      injOn := ?_
      cached_mem := fun id metadata hid => ?_
      agrees := fun id metadata hid m hm heq => ?_
      live_mem := fun m hm => Set.mem_insert_of_mem _ (h.live_mem m hm)
      index_mem := fun src m hm => Set.mem_insert_of_mem _ (h.index_mem src m hm)
      placed := h.placed.mono (Set.subset_insert _ _) }
  · rintro m (rfl | hm)
    · exact ⟨edges, hstored⟩
    · exact (h.readable m hm).congr (hfiles m hm)
  · rintro m (rfl | hm)
    · exact hlt
    · exact h.fileId_lt m hm
  · rintro a (rfl | ha) b (rfl | hb) heq
    · rfl
    · exact absurd heq.symm (hnew b hb)
    · exact absurd heq (hnew a ha)
    · exact h.injOn ha hb heq
  · obtain ⟨m, hm, hmid⟩ := h.cached_mem id metadata hid
    exact ⟨m, Set.mem_insert_of_mem _ hm, hmid⟩
  · obtain ⟨x, hx, hxid⟩ := h.cached_mem id metadata hid
    rcases hm with rfl | hm
    · exact absurd (hxid.trans heq.symm) (hnew x hx)
    · exact (readMetadataFromDisk_congr (hfiles m hm)).trans (h.agrees id metadata hid m hm heq)

/-- A file written under a reserved id by a job that then fails stays unknown. -/
theorem Keeps.withFile_lost (h : e.Keeps K) (level : LevelId) {fileId : FileId} (segment : CsrSegment)
    (hnew : ∀ m ∈ K, m.fileId ≠ fileId) :
    (e.withFile level fileId segment).Keeps K ∧ e.Extends (e.withFile level fileId segment) K K := by
  have hfiles : ∀ m ∈ K, putFile e.files level fileId segment m.level m.fileId =
      e.files m.level m.fileId := fun m hm => if_neg fun heq => hnew m hm heq.2
  refine ⟨{ h with readable := fun m hm => ?_, agrees := fun id metadata hid m hm heq => ?_ },
    subset_rfl, hfiles, le_rfl, fun m hm => ⟨hm, rfl⟩⟩
  · exact (h.readable m hm).congr (hfiles m hm)
  · exact (readMetadataFromDisk_congr (hfiles m hm)).trans (h.agrees id metadata hid m hm heq)

/-- Committing a known file makes it live, and no other. -/
theorem Keeps.mem_liveFiles_createFile (h : e.Keeps K) (hm : m ∈ K) (r : CsrSegmentMeta) :
    r ∈ (e.withRecord (.createFile m)).liveFiles ↔ r ∈ e.liveFiles ∨ r = m :=
  Manifest.mem_liveFiles_createFile_of_unique fun x hx heq => h.injOn (h.live_mem x hx) hm heq

theorem Keeps.withRecord_createFile (h : e.Keeps K) (hm : m ∈ K) :
    (e.withRecord (.createFile m)).Keeps K :=
  { h with
    live_mem := fun x hx => by
      rcases (h.mem_liveFiles_createFile hm x).mp hx with hx | rfl
      · exact h.live_mem x hx
      · exact hm }

theorem mem_liveFiles_deleteFile (e : Engine) (fileId : FileId) (r : CsrSegmentMeta) :
    r ∈ (e.withRecord (.deleteFile fileId)).liveFiles ↔ r ∈ e.liveFiles ∧ r.fileId ≠ fileId :=
  Manifest.mem_liveFiles_deleteFile

theorem Keeps.withRecord_deleteFile (h : e.Keeps K) (fileId : FileId) :
    (e.withRecord (.deleteFile fileId)).Keeps K :=
  { h with live_mem := fun x hx => h.live_mem x ((mem_liveFiles_deleteFile e fileId x).mp hx).1 }

end Engine

section Effects

variable {e e' : Engine} {K K' : Set CsrSegmentMeta} {kind : JobKind} {stage : Stage}
  {progress : Progress} {fault : Option Bool}

/-- A job has gone on from `e` to `e'`, where the files `K'` are known. -/
structure JobKind.Advances (kind : JobKind) (e e' : Engine) (K K' : Set CsrSegmentMeta) (stage : Stage)
    (progress : Progress) : Prop where
  keeps : e'.Keeps K'
  ext : e.Extends e' K K'
  memory : e.SameMemory e'
  new : ∀ m ∈ K', m ∈ K ∨
    stage.reserved = some m.fileId ∧ ∀ r ∈ segmentRecords e'.files m, r ∈ kind.source e
  job : ∀ stage', progress = .on stage' → Job.Sound e' K' kind stage'
  reserved : ∀ stage' id, progress = .on stage' → stage'.reserved = some id → e.nextFileId ≤ id

/-- A step that makes no file known and reserves no id. -/
theorem JobKind.Advances.of_keeps (hkeeps : e'.Keeps K) (hext : e.Extends e' K K)
    (hmemory : e.SameMemory e')
    (hjob : ∀ stage', progress = .on stage' → Job.Sound e' K kind stage' ∧ stage'.reserved = none) :
    kind.Advances e e' K K stage progress where
  keeps := hkeeps
  ext := hext
  memory := hmemory
  new _ hm := Or.inl hm
  job stage' hstage' := (hjob stage' hstage').1
  reserved stage' _ hstage' hid := absurd ((hjob stage' hstage').2 ▸ hid) nofun

/-- A written segment makes its file known; it moves from what is pending to what is written. -/
theorem JobKind.advances_write {fileId : FileId} {segmentEdges : List EdgeRecord}
    {segments : List (List EdgeRecord)} {outputs : List CsrSegmentMeta} (hkeeps : e.Keeps K)
    (hjob : Job.Sound e K kind (.write fileId segmentEdges segments outputs)) :
    kind.Advances e
      (e.withFile kind.level fileId (CsrWriter.writeSegment kind.level fileId segmentEdges).1) K
      (insert (CsrWriter.writeSegment kind.level fileId segmentEdges).2 K)
      (.write fileId segmentEdges segments outputs)
      (.on (.commit (CsrWriter.writeSegment kind.level fileId segmentEdges).2 segments outputs)) := by
  obtain ⟨hlt, hnew⟩ := hjob.reserved fileId rfl
  have hne : segmentEdges ≠ [] := fun hnil => hjob.nonempty (hnil ▸ List.mem_cons_self)
  obtain ⟨hkeeps', hext, hstored⟩ := hkeeps.withFile kind.level hlt hnew hne
  have hrecords : ∀ r, r ∈ segmentRecords (e.withFile kind.level fileId
      (CsrWriter.writeSegment kind.level fileId segmentEdges).1).files
        (CsrWriter.writeSegment kind.level fileId segmentEdges).2 ↔ r ∈ segmentEdges := by
    intro r
    rw [segmentRecords_of_stored hstored, mem_sortByKey]
  -- the segment moves from what is pending to what is written
  have hdata : (Stage.commit (CsrWriter.writeSegment kind.level fileId segmentEdges).2 segments
      outputs).data (e.withFile kind.level fileId
        (CsrWriter.writeSegment kind.level fileId segmentEdges).1).files =
      (Stage.write fileId segmentEdges segments outputs).data e.files := by
    have hold : fileRecords (e.withFile kind.level fileId
        (CsrWriter.writeSegment kind.level fileId segmentEdges).1).files outputs =
          fileRecords e.files outputs :=
      hext.fileRecords_eq fun m hm => (hjob.written m hm).1
    ext r
    simp only [Stage.data, Stage.written, Stage.pending, List.flatten_cons, List.mem_append,
      Set.mem_union, Set.mem_ofPred_eq, mem_fileRecords_concat, hrecords, hold, or_assoc]
  have hsource := hjob.placed.source_eq hext
  refine
    { keeps := hkeeps'
      ext := hext
      memory := ⟨rfl, rfl, rfl, rfl, rfl, rfl⟩
      new := ?_
      job := ?_
      reserved := ?_ }
  · rintro m (rfl | hm)
    · refine Or.inr ⟨rfl, fun r hr => hjob.data_sub (Or.inr ?_)⟩
      exact List.mem_flatten.mpr ⟨segmentEdges, List.mem_cons_self, (hrecords r).mp hr⟩
    · exact Or.inl hm
  · rintro stage' ⟨⟩
    refine ⟨hjob.placed.mono hext, fun m hm => ?_, nofun, nofun,
      fun hmem => hjob.nonempty (List.mem_cons_of_mem _ hmem), ?_, fun _ => ?_⟩
    · rcases List.mem_append.mp hm with hm | hm
      · exact ⟨Set.mem_insert_of_mem _ (hjob.written m hm).1, (hjob.written m hm).2⟩
      · rw [List.mem_singleton.mp hm]
        exact ⟨Set.mem_insert _ _, rfl⟩
    · rw [hdata, hsource]
      exact hjob.data_sub
    · rw [hdata, hsource]
      exact hjob.covers trivial
  · rintro stage' id ⟨⟩ ⟨⟩

/-- **The step of a job** keeps the engine sound, and the job with it. -/
theorem JobKind.Effect.advances (h : kind.Effect fault e stage progress e') (hkeeps : e.Keeps K)
    (hjob : Job.Sound e K kind stage) (hcoh : Coherent (kind.source e))
    (hts : ∀ r ∈ kind.source e, r.ts ≤ e.timestamp) :
    ∃ K', kind.Advances e e' K K' stage progress := by
  have hsame : e.SameMemory e := ⟨rfl, rfl, rfl, rfl, rfl, rfl⟩
  have hended : ∀ {ok : Bool} (P : Stage → Prop), ∀ stage', Progress.off ok = .on stage' → P stage' :=
    fun _ _ heq => absurd heq nofun
  have hread : ∀ v, stage.version = some v → ∀ m ∈ v.upperFiles, m ∈ K ∧ Readable e.files m := by
    intro v hv m hm
    have hmem := (hjob.version v hv).mem (Version.mem_files_iff.mpr (Or.inr hm))
    exact ⟨hmem, hkeeps.readable m hmem⟩
  cases h with
  | nothing h => exact ⟨K, .of_keeps hkeeps (.refl e K) hsame (hended _)⟩
  | unreadable h => exact ⟨K, .of_keeps hkeeps (.refl e K) hsame (hended _)⟩
  | load h hne =>
      obtain ⟨hnonempty, hsub, hcovers⟩ := kind.toWrite_spec hkeeps hjob.placed hcoh hts h
      refine ⟨K, .of_keeps hkeeps (.refl e K) hsame ?_⟩
      rintro stage' ⟨⟩
      refine ⟨⟨hjob.placed, nofun, nofun, nofun, hnonempty, ?_, fun _ => ?_⟩, rfl⟩
      · rintro r (⟨m, hm, -⟩ | hr)
        · exact absurd hm List.not_mem_nil
        · exact hsub hr
      · exact hcovers.mono Set.subset_union_right subset_rfl
  | created =>
      refine ⟨K, .of_keeps hkeeps (.refl e K) hsame ?_⟩
      rintro stage' ⟨⟩
      exact ⟨hjob.goOn trivial rfl rfl nofun nofun, rfl⟩
  | @alloc segmentEdges segments outputs =>
      have hext : e.Extends { e with nextFileId := e.nextFileId + 1 } K K :=
        ⟨subset_rfl, fun _ _ => rfl, Nat.le_succ _, fun _ hm => ⟨hm, rfl⟩⟩
      refine ⟨K, ?_⟩
      refine
        { keeps := { hkeeps with fileId_lt := fun m hm => (hkeeps.fileId_lt m hm).trans_le (Nat.le_succ _) }
          ext := hext
          memory := ⟨rfl, rfl, rfl, rfl, rfl, rfl⟩
          new := fun m hm => Or.inl hm
          job := ?_
          reserved := ?_ }
      · rintro stage' ⟨⟩
        refine (hjob.mono hext nofun).goOn trivial rfl rfl ?_ nofun
        rintro id ⟨⟩
        exact ⟨Nat.lt_succ_self _, fun m hm => (hkeeps.fileId_lt m hm).ne⟩
      · rintro stage' id ⟨⟩ ⟨⟩
        exact le_rfl
  | @write fileId segmentEdges segments outputs hfault =>
      exact ⟨_, JobKind.advances_write hkeeps hjob⟩
  | @writeFails fileId segmentEdges segments outputs durable hfault =>
      refine ⟨K, ?_⟩
      cases durable with
      | false => exact .of_keeps hkeeps (.refl e K) hsame (hended _)
      | true =>
          obtain ⟨hkeeps', hext⟩ := hkeeps.withFile_lost kind.level
            (CsrWriter.writeSegment kind.level fileId segmentEdges).1
            (hjob.reserved fileId rfl).2
          exact .of_keeps hkeeps' hext ⟨rfl, rfl, rfl, rfl, rfl, rfl⟩ (hended _)
  | @commit m segments outputs hfault =>
      have hm := (hjob.written m (List.mem_append_right _ (List.mem_singleton_self m))).1
      have hext : e.Extends (e.withRecord (.createFile m)) K K := .of_same rfl rfl rfl rfl rfl
      refine ⟨K, .of_keeps (hkeeps.withRecord_createFile hm) hext ⟨rfl, rfl, rfl, rfl, rfl, rfl⟩ ?_⟩
      rintro stage' ⟨⟩
      exact ⟨(hjob.mono hext nofun).goOn trivial rfl rfl nofun nofun, rfl⟩
  | @commitFails m segments outputs durable hfault =>
      have hm := (hjob.written m (List.mem_append_right _ (List.mem_singleton_self m))).1
      refine ⟨K, ?_⟩
      cases durable with
      | false => exact .of_keeps hkeeps (.refl e K) hsame (hended _)
      | true =>
          exact .of_keeps (hkeeps.withRecord_createFile hm) (.of_same rfl rfl rfl rfl rfl)
            ⟨rfl, rfl, rfl, rfl, rfl, rfl⟩ (hended _)
  | @delete n m outputs hm hfault =>
      have hext : e.Extends (e.withRecord (.deleteFile m.fileId)) K K := .of_same rfl rfl rfl rfl rfl
      refine ⟨K, .of_keeps (hkeeps.withRecord_deleteFile _) hext ⟨rfl, rfl, rfl, rfl, rfl, rfl⟩ ?_⟩
      rintro stage' ⟨⟩
      exact ⟨(hjob.mono hext nofun).goOn trivial rfl rfl nofun nofun, rfl⟩
  | @deleteFails n m outputs durable hm hfault =>
      refine ⟨K, ?_⟩
      cases durable with
      | false => exact .of_keeps hkeeps (.refl e K) hsame (hended _)
      | true =>
          exact .of_keeps (hkeeps.withRecord_deleteFile _) (.of_same rfl rfl rfl rfl rfl)
            ⟨rfl, rfl, rfl, rfl, rfl, rfl⟩ (hended _)
  | deleted hm =>
      refine ⟨K, .of_keeps hkeeps (.refl e K) hsame ?_⟩
      rintro stage' ⟨⟩
      exact ⟨hjob.goOn trivial rfl rfl nofun nofun, rfl⟩
  | pin =>
      refine ⟨K, .of_keeps hkeeps (.refl e K) hsame ?_⟩
      rintro stage' ⟨⟩
      refine ⟨hjob.goOn trivial rfl rfl nofun ?_, rfl⟩
      rintro v ⟨⟩
      exact hkeeps.placed
  | @publish old outputs =>
      have hplaced : (kind.next old outputs).Placed K := (hjob.version old rfl).next hjob.written
      have hext : e.Extends { e with current := kind.next old outputs } K K :=
        .of_same rfl rfl rfl rfl rfl
      refine ⟨K, .of_keeps { hkeeps with placed := hplaced } hext ⟨rfl, rfl, rfl, rfl, rfl, rfl⟩ ?_⟩
      rintro stage' ⟨⟩
      exact ⟨.idle (hjob.placed.mono hext) rfl rfl rfl nofun id, rfl⟩
  | rebuild =>
      refine ⟨K, .of_keeps hkeeps (.refl e K) hsame ?_⟩
      rintro stage' ⟨⟩
      refine ⟨.idle hjob.placed rfl rfl rfl ?_ id, rfl⟩
      rintro v ⟨⟩
      exact hkeeps.placed
  | @install v entries cache h =>
      obtain ⟨cache', hrun, hgrows⟩ := buildIndex_spec hkeeps.injOn (hread v rfl) hkeeps.agrees
      rw [hrun] at h
      cases h
      refine ⟨K, .of_keeps ?_ (.of_same rfl rfl rfl rfl rfl)
        ⟨rfl, rfl, rfl, rfl, rfl, rfl⟩ (hended _)⟩
      exact { hkeeps.withCache hgrows with
        index_mem := fun src m hm => (hread v rfl m (mem_indexOf.mp hm).1).1 }
  | @installFails v err cache h =>
      -- the files of a pinned version can be read
      obtain ⟨cache', hrun, -⟩ := buildIndex_spec hkeeps.injOn (hread v rfl) hkeeps.agrees
      rw [hrun] at h
      cases h

end Effects

/-! ## Everybody -/

namespace Call

/-- The version a lookup has pinned. -/
def version : Call → Option Version
  | .looking v _ _ _ => some v
  | _ => none

/-- The record a write is about to insert. -/
def edge : Call → Option EdgeRecord
  | .writing edge => some edge
  | _ => none

end Call

namespace Sys

/-- The books on records. No two records clash, be they inserted or about to be; what is stored was
inserted; and what was inserted is in a memgraph or was recovered. -/
structure Ledger (x : Sys) (K : Set CsrSegmentMeta) : Prop where
  coherent : Coherent {r | r ∈ x.inserted}
  ts_le : ∀ r ∈ x.inserted, r.ts ≤ x.engine.timestamp
  edge_le : ∀ c edge, (x.calls c).edge = some edge → edge.ts ≤ x.engine.timestamp
  edge_new : ∀ c edge, (x.calls c).edge = some edge → ∀ r ∈ x.inserted, r.ts ≠ edge.ts
  edge_inj : ∀ c edge, (x.calls c).edge = some edge → ∀ c' edge', (x.calls c').edge = some edge' →
    edge.ts = edge'.ts → c = c'
  stored : ∀ id r, (x.engine.heap id).Stores r → r ∈ x.inserted
  known : ∀ m ∈ K, ∀ r ∈ segmentRecords x.engine.files m, r ∈ x.inserted
  recovered : ∀ r ∈ x.recovered, r ∈ x.inserted
  complete : ∀ r ∈ x.inserted, r ∈ x.recovered ∨
    ∃ m < x.engine.nextMemGraphId, (x.engine.heap m).Stores r

/-- Everybody is right about the files `K`. -/
structure Sound (x : Sys) (K : Set CsrSegmentMeta) : Prop where
  keeps : x.engine.Keeps K
  job : ∀ p j, x.jobs p = some j → Job.Sound x.engine K j.kind j.stage
  reserved_inj : ∀ p j id, x.jobs p = some j → j.stage.reserved = some id →
    ∀ p' j', x.jobs p' = some j' → j'.stage.reserved = some id → p = p'
  version : ∀ c v, (x.calls c).version = some v → v.Placed K
  ledger : x.Ledger K

/-- Who works for whom. -/
structure Roles (x : Sys) : Prop where
  task : ∀ m j, x.jobs (.task m) = some j → j.kind = .flush m
  call : ∀ c j, x.jobs (.call c) = some j →
    (∃ began, x.calls c = .compacting began) ∧ ∀ m, j.kind ≠ .flush m
  spawning : ∀ c m, (x.calls c).spawning = some m →
    x.engine.Frozen m ∧ x.jobs (.task m) = none ∧ x.ended m = none
  spawning_inj : ∀ c m, (x.calls c).spawning = some m →
    ∀ c', (x.calls c').spawning = some m → c = c'
  spawned : ∀ m, x.jobs (.task m) ≠ none ∨ x.ended m ≠ none → x.engine.Frozen m

variable {x y : Sys} {K K' : Set CsrSegmentMeta} {c : CallId} {call : Call}

/-- What a job is about was inserted. -/
theorem Sound.source_sub (h : x.Sound K) {kind : JobKind} (hplaced : kind.Placed x.engine K) :
    kind.source x.engine ⊆ {r | r ∈ x.inserted} := by
  have hfiles : ∀ {ms : List CsrSegmentMeta}, (∀ m ∈ ms, m ∈ K) →
      fileRecords x.engine.files ms ⊆ {r | r ∈ x.inserted} := by
    rintro ms hms r ⟨m, hm, hr⟩
    exact h.ledger.known m (hms m hm) r hr
  cases kind with
  | flush memgraph => exact fun r hr => h.ledger.stored memgraph r hr
  | full l0Files l1Files => exact hfiles hplaced.inputs_mem
  | target selectedL0 selectedL1 => exact hfiles hplaced.inputs_mem

/-! ## Calls -/

/-- A call goes on to where it neither reads nor writes. -/
theorem Ledger.setCall (h : x.Ledger K) (hedge : call.edge = none) : (x.setCall c call).Ledger K := by
  have hold : ∀ c' edge, ((x.setCall c call).calls c').edge = some edge →
      (x.calls c').edge = some edge := by
    intro c' edge hc'
    by_cases hcc : c' = c
    · subst hcc
      simp [Sys.setCall, hedge] at hc'
    · simp only [Sys.setCall, Function.update_of_ne hcc] at hc'
      exact hc'
  exact
    { h with
      edge_le := fun c' edge hc' => h.edge_le c' edge (hold c' edge hc')
      edge_new := fun c' edge hc' => h.edge_new c' edge (hold c' edge hc')
      edge_inj := fun c' edge hc' c'' edge' hc'' =>
        h.edge_inj c' edge (hold c' edge hc') c'' edge' (hold c'' edge' hc'') }

theorem Sound.setCall (h : x.Sound K) (hedge : call.edge = none)
    (hversion : ∀ v, call.version = some v → v.Placed K) : (x.setCall c call).Sound K :=
  { h with
    version := (Function.forall_update_iff x.calls
      fun _ call => ∀ v, call.version = some v → v.Placed K).mpr ⟨hversion, fun c' _ => h.version c'⟩
    ledger := h.ledger.setCall hedge }

/-- A draw takes a timestamp nobody has. -/
theorem Sound.draw (h : x.Sound K) {edge : EdgeRecord} (hoverflow : x.engine.timestamp + 1 ≠ 0)
    (hts : edge.ts = x.engine.timestamp + 1) :
    ({ x with engine := { x.engine with timestamp := edge.ts } }.setCall c (.writing edge)).Sound K := by
  have hlt : x.engine.timestamp < edge.ts := by
    rw [hts]
    exact Timestamp.lt_drawn hoverflow
  refine
    { h with
      keeps := { h.keeps with }
      job := fun p j hj => (h.job p j hj).mono (.of_same rfl rfl rfl rfl rfl)
        fun id hid => ((h.job p j hj).reserved id hid).2
      version := ?_
      ledger := ?_ }
  · exact (Function.forall_update_iff x.calls
      fun _ call => ∀ v, call.version = some v → v.Placed K).mpr ⟨nofun, fun c' _ => h.version c'⟩
  · -- the timestamp is past the counter, hence past every record and every edge drawn before
    have hcase : ∀ c' edge', (Function.update x.calls c (.writing edge) c').edge = some edge' →
        c' = c ∧ edge' = edge ∨ (x.calls c').edge = some edge' := by
      intro c' edge' hc'
      by_cases hcc : c' = c
      · subst hcc
        rw [Function.update_self, Call.edge, Option.some.injEq] at hc'
        exact Or.inl ⟨rfl, hc'.symm⟩
      · rw [Function.update_of_ne hcc] at hc'
        exact Or.inr hc'
    refine
      { h.ledger with
        ts_le := fun r hr => (h.ledger.ts_le r hr).trans hlt.le
        edge_le := fun c' edge' hc' => ?_
        edge_new := fun c' edge' hc' r hr => ?_
        edge_inj := fun c' edge' hc' c'' edge'' hc'' heq => ?_ }
    · rcases hcase c' edge' hc' with ⟨-, rfl⟩ | hc'
      · exact le_rfl
      · exact (h.ledger.edge_le c' edge' hc').trans hlt.le
    · rcases hcase c' edge' hc' with ⟨-, rfl⟩ | hc'
      · exact ((h.ledger.ts_le r hr).trans_lt hlt).ne
      · exact h.ledger.edge_new c' edge' hc' r hr
    · rcases hcase c' edge' hc' with ⟨rfl, rfl⟩ | hc'
      · rcases hcase c'' edge'' hc'' with ⟨rfl, -⟩ | hc''
        · rfl
        · exact absurd heq ((h.ledger.edge_le c'' edge'' hc'').trans_lt hlt).ne'
      · rcases hcase c'' edge'' hc'' with ⟨-, hedge⟩ | hc''
        · exact absurd (hedge ▸ heq) ((h.ledger.edge_le c' edge' hc').trans_lt hlt).ne
        · exact h.ledger.edge_inj c' edge' hc' c'' edge'' hc'' heq

/-! ## Writes and rotations -/

/-- **An insertion** adds its record to the active memgraph and to nothing else. -/
theorem Sound.stores_withInserted (h : x.Sound K) {edge : EdgeRecord}
    (hcall : (x.calls c).edge = some edge) :
    (∀ id, ((x.engine.withInserted edge).heap id).WF) ∧
      ∀ id r, ((x.engine.withInserted edge).heap id).Stores r ↔
        (x.engine.heap id).Stores r ∨ id = x.engine.active ∧ r = edge := by
  obtain ⟨hwf, hstores⟩ := MemGraph.insert_spec (e := edge) (h.keeps.memgraph x.engine.active)
    fun r hr hkey => h.ledger.edge_new c edge hcall r (h.ledger.stored _ r hr)
      (congrArg (fun k => (ofLex k).2) hkey)
  refine ⟨fun id => ?_, fun id r => ?_⟩
  · by_cases hid : id = x.engine.active
    · subst hid
      simpa [Engine.withInserted] using hwf
    · simpa [Engine.withInserted, hid] using h.keeps.memgraph id
  · by_cases hid : id = x.engine.active
    · subst hid
      simp [Engine.withInserted, hstores]
    · simp [Engine.withInserted, hid]

theorem extends_withInserted (e : Engine) (edge : EdgeRecord) (K : Set CsrSegmentMeta) :
    e.Extends (e.withInserted edge) K K :=
  ⟨subset_rfl, fun _ _ => rfl, le_rfl, fun _ hm => ⟨hm, Function.update_of_ne hm.2 _ _⟩⟩

/-- **The write of a record** whose timestamp was drawn. -/
theorem Sound.write (h : x.Sound K) {edge : EdgeRecord} (hcall : (x.calls c).edge = some edge)
    (hedge : call.edge = none) (hversion : call.version = none) :
    ({ x with
      engine := x.engine.withInserted edge
      inserted := x.inserted ++ [edge] }.setCall c call).Sound K := by
  obtain ⟨hwf, hstores⟩ := h.stores_withInserted hcall
  have hext := extends_withInserted x.engine edge K
  have hmem : ∀ r, r ∈ x.inserted ++ [edge] ↔ r ∈ x.inserted ∨ r = edge := by
    intro r
    rw [List.mem_append, List.mem_singleton]
  have hnew := h.ledger.edge_new c edge hcall
  have hold : ∀ c' edge', (Function.update x.calls c call c').edge = some edge' →
      c' ≠ c ∧ (x.calls c').edge = some edge' := by
    intro c' edge' hc'
    by_cases hcc : c' = c
    · subst hcc
      simp [hedge] at hc'
    · rw [Function.update_of_ne hcc] at hc'
      exact ⟨hcc, hc'⟩
  refine
    { h with
      keeps := { h.keeps with memgraph := hwf }
      job := fun p j hj => (h.job p j hj).mono hext fun id hid => ((h.job p j hj).reserved id hid).2
      version := ?_
      ledger := ?_ }
  · exact (Function.forall_update_iff x.calls
      fun _ call => ∀ v, call.version = some v → v.Placed K).mpr
        ⟨fun v hv => absurd (hversion ▸ hv) nofun, fun c' _ => h.version c'⟩
  · -- timestamps are drawn once, so `edge` meets no record and no other call's edge at its own
    refine
      { coherent := fun r hr r' hr' hkey hts => ?_
        ts_le := fun r hr => ?_
        edge_le := fun c' edge' hc' => h.ledger.edge_le c' edge' (hold c' edge' hc').2
        edge_new := fun c' edge' hc' r hr => ?_
        edge_inj := fun c' edge' hc' c'' edge'' hc'' =>
          h.ledger.edge_inj c' edge' (hold c' edge' hc').2 c'' edge'' (hold c'' edge'' hc'').2
        stored := fun id r hr => ?_
        known := fun m hm r hr => (hmem r).mpr (Or.inl (h.ledger.known m hm r hr))
        recovered := fun r hr => (hmem r).mpr (Or.inl (h.ledger.recovered r hr))
        complete := fun r hr => ?_ }
    · rcases (hmem r).mp hr with hold | heq
      · rcases (hmem r').mp hr' with hold' | heq'
        · exact h.ledger.coherent r hold r' hold' hkey hts
        · exact absurd (heq' ▸ hts) (hnew r hold)
      · rcases (hmem r').mp hr' with hold' | heq'
        · exact absurd (heq ▸ hts).symm (hnew r' hold')
        · exact heq.trans heq'.symm
    · rcases (hmem r).mp hr with hr | rfl
      · exact h.ledger.ts_le r hr
      · exact h.ledger.edge_le c r hcall
    · obtain ⟨hne, hc'⟩ := hold c' edge' hc'
      rcases (hmem r).mp hr with hr | heq
      · exact h.ledger.edge_new c' edge' hc' r hr
      · exact fun hts => hne (h.ledger.edge_inj c' edge' hc' c edge hcall (heq ▸ hts).symm)
    · rcases (hstores id r).mp hr with hr | ⟨-, rfl⟩
      · exact (hmem r).mpr (Or.inl (h.ledger.stored id r hr))
      · exact (hmem r).mpr (Or.inr rfl)
    · rcases (hmem r).mp hr with hr | rfl
      · refine (h.ledger.complete r hr).imp_right ?_
        rintro ⟨m, hm, hr⟩
        exact ⟨m, hm, (hstores m r).mpr (Or.inl hr)⟩
      · exact Or.inr ⟨x.engine.active, h.keeps.active_lt, (hstores _ r).mpr (Or.inr ⟨rfl, rfl⟩)⟩

theorem extends_withNewActive (e : Engine) (K : Set CsrSegmentMeta) :
    e.Extends e.withNewActive K K := by
  refine ⟨subset_rfl, fun _ _ => rfl, le_rfl, fun m hm => ⟨⟨hm.1.trans (Nat.lt_succ_self _), ?_⟩, ?_⟩⟩
  · exact hm.1.ne
  · exact Function.update_of_ne hm.1.ne _ _

/-- **A rotation** freezes the active memgraph and adds an empty one. -/
theorem Sound.rotate (h : x.Sound K) : ({ x with engine := x.engine.withNewActive } : Sys).Sound K := by
  have hext := extends_withNewActive x.engine K
  have hheap : ∀ id, x.engine.withNewActive.heap id = x.engine.heap id ∨ id = x.engine.nextMemGraphId ∧
      x.engine.withNewActive.heap id =
        MemGraph.new x.engine.config.memgraphCapacityBytes x.engine.config.inlineSegmentCapacity := by
    intro id
    by_cases hid : id = x.engine.nextMemGraphId
    · subst hid
      exact Or.inr ⟨rfl, Function.update_self _ _ _⟩
    · exact Or.inl (Function.update_of_ne hid _ _)
  refine
    { h with
      keeps := { h.keeps with
        memgraph := fun id => ?_
        active_lt := Nat.lt_succ_self _ }
      job := fun p j hj => (h.job p j hj).mono hext fun id hid => ((h.job p j hj).reserved id hid).2
      ledger := { h.ledger with
        stored := fun id r hr => ?_
        complete := fun r hr => ?_ } }
  · rcases hheap id with heq | ⟨-, heq⟩
    · rw [heq]
      exact h.keeps.memgraph id
    · rw [heq]
      exact MemGraph.wf_new _ _
  · rcases hheap id with heq | ⟨-, heq⟩
    · rw [heq] at hr
      exact h.ledger.stored id r hr
    · rw [heq] at hr
      exact absurd hr (MemGraph.not_stores_new _ _ r)
  · refine (h.ledger.complete r hr).imp_right ?_
    rintro ⟨m, hm, hr⟩
    refine ⟨m, hm.trans (Nat.lt_succ_self _), ?_⟩
    rwa [show x.engine.withNewActive.heap m = x.engine.heap m from Function.update_of_ne hm.ne _ _]

end Sys

end LsmGraph
