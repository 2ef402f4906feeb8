import LsmGraph.Engine.Invariant

/-! # Flushes, compactions and reopening

What maintenance does to the data of a quiet engine. A flush moves the records of one memgraph to
disk and hides nothing (`runFlushTask_spec`). A compaction drops records only if a newer version of
the same edge was among its inputs, and the live files keep covering what they covered, whether it
completes or an I/O fault ends it at any point (`compactFiles_spec`). Opening a directory gives access
to what its live files hold (`openDir_spec`). -/

namespace LsmGraph

open KeyedSort ErrorState CsrReader

namespace Engine

variable {e e' : Engine} {ms : List CsrSegmentMeta} {K : Set CsrSegmentMeta}

/-! ## Changes on disk -/

/-- Files that were there keep their records. -/
theorem Creates.fileRecords_eq (h : Creates e e' ms) (hK : e.Intact K) {l : List CsrSegmentMeta}
    (hl : ∀ m ∈ l, m ∈ K) : fileRecords e'.files l = fileRecords e.files l :=
  fileRecords_congr fun m hm => h.files_eq _ _ (hK.fileId_lt m (hl m hm))

/-- Created files add their records to the live ones. -/
theorem Creates.mem_liveRecords (h : Creates e e' ms) (hK : e.Intact K) (r : EdgeRecord) :
    r ∈ e'.liveRecords ↔ r ∈ e.liveRecords ∨ r ∈ fileRecords e'.files ms := by
  rw [liveRecords, liveRecords, ← h.fileRecords_eq hK hK.live_mem]
  exact mem_fileRecords_or (h.mem_live hK.manifest_le)

/-- **Creating files does not disturb a quiet engine**, as long as they hold nothing from the
future. -/
theorem Creates.wf (h : Creates e e' ms) (hwf : e.WF)
    (hts : ∀ r ∈ fileRecords e'.files ms, r.ts ≤ e.timestamp) :
    e'.WF ∧ e'.diskRecords = e.diskRecords ∧ e'.unflushed = e.unflushed := by
  have hfiles : ∀ m ∈ e.current.files, m ∈ e.knownFiles := fun m hm => Or.inl hm
  have hintact : e'.Intact e'.knownFiles := by
    refine (h.intact hwf.intact).mono (fun m hm => ?_) fun m hm => Or.inr hm
    rcases hm with hm | hm
    · obtain ⟨_, _, _, _, rfl⟩ := h.frame
      exact Or.inl (Or.inl hm)
    · exact ((h.mem_live hwf.intact.manifest_le m).mp hm).imp_left Or.inr
  have hindex : indexOf e'.files e.current = indexOf e.files e.current :=
    indexOf_congr fun m hm => h.files_eq _ _
      (hwf.intact.fileId_lt m (hfiles m (Version.mem_files_iff.mpr (Or.inr hm))))
  have hlive := h.mem_liveRecords hwf.intact
  have hrecords := h.fileRecords_eq hwf.intact hfiles
  have hmanifestTs : e'.manifestTs ≤ e.timestamp := by
    refine h.le_manifestTs _ hwf.manifestTs_le fun m hm => ?_
    obtain ⟨r, hr, hrts⟩ := (h.readable m hm).exists_ts_eq_maxTs
    exact hrts ▸ hts r ⟨m, hm, hr⟩
  obtain ⟨_, _, _, _, rfl⟩ := h.frame
  have hsame : versionRecords _ e.heap e.current = versionRecords e.files e.heap e.current :=
    congrArg (memRecords e.heap e.current ∪ ·) hrecords
  refine ⟨{ hwf with
    intact := hintact
    index_eq := hwf.index_eq.trans hindex.symm
    ts_le := fun r hr => ?_
    manifestTs_le := hmanifestTs }, hrecords, rfl⟩
  rcases hr with hr | hr
  · exact hwf.ts_le r (Or.inl (hsame.le hr))
  · exact ((hlive r).mp hr).elim (fun hr => hwf.ts_le r (Or.inr hr)) (hts r)

/-- **Deleting files in the manifest does not disturb a quiet engine**; they stay readable. -/
theorem Deletes.wf {ids : List FileId} (h : Deletes e e' ids) (hwf : e.WF) :
    e'.WF ∧ e'.diskRecords = e.diskRecords ∧ e'.unflushed = e.unflushed := by
  have hintact : e'.Intact e'.knownFiles := by
    refine (h.intact hwf.intact).mono (fun m hm => ?_) fun m hm => Or.inr hm
    rcases hm with hm | hm
    · obtain ⟨_, _, rfl⟩ := h.frame
      exact Or.inl hm
    · exact Or.inr ((h.mem_live m).mp hm).1
  have hlive := h.mem_live
  have hmanifestTs := h.manifestTs_eq
  obtain ⟨_, _, rfl⟩ := h.frame
  refine ⟨{ hwf with
    intact := hintact
    ts_le := fun r hr => ?_
    manifestTs_le := hmanifestTs.trans_le hwf.manifestTs_le }, rfl, rfl⟩
  rcases hr with hr | ⟨m, hm, hr⟩
  · exact hwf.ts_le r (Or.inl hr)
  · exact hwf.ts_le r (Or.inr ⟨m, ((hlive m).mp hm).1, hr⟩)

/-! ## Publishing -/

/-- The files of the current version lie on their levels. -/
theorem WF.placed (h : e.WF) : e.current.Placed e.knownFiles := fun i m hm =>
  ⟨Or.inl (Version.mem_files.mpr ⟨i, hm⟩), h.level_eq i m hm⟩

/-- The state after a version was published and the index rebuilt. -/
def republished (e : Engine) (v : Version) (cache : CsrMetadataCache) : Engine :=
  { e with current := v, index := indexOf e.files v, metadataCache := cache }

/-- **Publishing a version of known files** and rebuilding the index. -/
theorem publish_rebuildIndex_spec (h : e.WF) {v : Version} (hsub : ∀ m ∈ v.files, m ∈ e.knownFiles) :
    ∃ cache, (do publish v; rebuildIndex) e = .ok () (e.republished v cache) ∧
      (e.republished v cache).Intact (e.republished v cache).knownFiles := by
  have hintact : ({ e with current := v } : Engine).Intact e.knownFiles :=
    h.intact.congr rfl rfl rfl rfl
  obtain ⟨cache, hrun, hintact'⟩ := rebuildIndex_spec hintact hsub
  refine ⟨cache, ?_, ?_⟩
  · rw [publish, bind_of_ok (modify_apply _)]
    exact hrun
  · refine hintact'.mono (fun m hm => ?_) fun m hm => Or.inr hm
    exact hm.elim (hsub m) Or.inr

/-- What has to be checked of a published version. -/
theorem WF.republished (h : e.WF) {v : Version} {cache : CsrMetadataCache} {running : List MemGraphId}
    (hsub : ∀ m ∈ v.files, m ∈ e.knownFiles)
    (hintact : (e.republished v cache).Intact (e.republished v cache).knownFiles)
    (hmem : ∀ id, id ∈ v.memgraphs ↔ id = e.active ∨ id ∈ running)
    (hrunning : ∀ id ∈ running, id ∈ e.running)
    (hlevel : ∀ i, ∀ m ∈ v.level i, m.level.toNat = i) :
    ({ e.republished v cache with running := running } : Engine).WF := by
  have hmemgraphs : ∀ id ∈ v.memgraphs, id ∈ e.current.memgraphs := fun id hid =>
    (h.mem_memgraphs id).mpr (((hmem id).mp hid).imp_right (hrunning id))
  refine
    { intact := hintact.congr rfl rfl rfl rfl
      memgraph := h.memgraph
      mem_memgraphs := hmem
      active_notMem := fun hactive => h.active_notMem (hrunning _ hactive)
      memgraph_lt := fun id hid => h.memgraph_lt id (hmemgraphs id hid)
      running_nonempty := fun id hid => h.running_nonempty id (hrunning id hid)
      mem_flushTasks := fun id hid => h.mem_flushTasks id (hrunning id hid)
      level_eq := hlevel
      index_eq := rfl
      ts_le := ?_
      manifestTs_le := h.manifestTs_le }
  rintro r ((⟨id, hid, hr⟩ | ⟨m, hm, hr⟩) | hr)
  · exact h.ts_le r (Or.inl (Or.inl ⟨id, hmemgraphs id hid, hr⟩))
  · rcases hsub m hm with hm | hm
    · exact h.ts_le r (Or.inl (Or.inr ⟨m, hm, hr⟩))
    · exact h.ts_le r (Or.inr ⟨m, hm, hr⟩)
  · exact h.ts_le r (Or.inr hr)

/-! ## Flushing -/

/-- The records of `m` went to disk; nothing was lost or hidden. -/
structure Flushes (e e' : Engine) (m : MemGraphId) : Prop where
  records_eq : e'.records = e.records
  unflushed_sub : e'.unflushed ⊆ e.unflushed
  unflushed_or : ∀ r ∈ e.unflushed, r ∈ e'.unflushed ∨ (e.heap m).Stores r
  mem_liveRecords : ∀ r, r ∈ e'.liveRecords ↔ r ∈ e.liveRecords ∨ (e.heap m).Stores r
  manifestTs_le : e.manifestTs ≤ e'.manifestTs
  ts_le_manifestTs : ∀ r, (e.heap m).Stores r → r.ts ≤ e'.manifestTs
  timestamp_eq : e'.timestamp = e.timestamp
  fault_eq : e'.fault = none
  running_eq : e'.running = e.running.filter fun id => id ≠ m
  heap_eq : e'.heap = e.heap
  active_eq : e'.active = e.active
  separated : e.Separated → e'.Separated

/-- The files of a flush hold what its memgraph holds. -/
theorem mem_fileRecords_flush {files : StoreFiles} {config : LsmGraphConfig} {g : MemGraph}
    (h : List.Forall₂ (Stored files) ms (buildL0FlushSegments config g.allEdgesSorted))
    (r : EdgeRecord) : r ∈ fileRecords files ms ↔ g.Stores r := by
  rw [fileRecords_of_forall₂ h]
  exact (perm_buildL0FlushSegments config g.allEdgesSorted).mem_iff.trans MemGraph.mem_allEdgesSorted

/-- A flush without I/O faults creates its files and publishes them in place of the memgraph. -/
theorem flushMemgraph_spec (h : e.WF) {m : MemGraphId} (hm : m ∈ e.running)
    (hfault : e.fault = none) :
    ∃ metas e₁ cache, Creates e e₁ metas ∧
      (∀ r, r ∈ fileRecords e₁.files metas ↔ (e.heap m).Stores r) ∧
      (∀ x ∈ metas, x.level = L0) ∧ e₁.fault = none ∧ e₁.WF ∧
      (∀ x ∈ (e.current.afterFlush m metas).files, x ∈ e₁.knownFiles) ∧
      flushMemgraph m e = .ok () (e₁.republished (e.current.afterFlush m metas) cache) ∧
      (e₁.republished (e.current.afterFlush m metas) cache).Intact
        (e₁.republished (e.current.afterFlush m metas) cache).knownFiles := by
  obtain ⟨r₀, hr₀⟩ := h.running_nonempty m hm
  have hedges : (e.heap m).allEdgesSorted ≠ [] :=
    List.ne_nil_of_mem (MemGraph.mem_allEdgesSorted.mpr hr₀)
  rcases createFiles_spec L0 (nil_notMem_buildL0FlushSegments e.config hedges) e with
    ⟨metas, e₁, hrun, hcreates, hstored, hlevel, hfault₁⟩ | ⟨_, _, _, hfault', _⟩
  swap
  · exact absurd hfault hfault'
  have hfiles := mem_fileRecords_flush hstored
  have hwf₁ := (hcreates.wf h fun r hr => h.ts_le r (Or.inl (Or.inl
    ⟨m, (h.mem_memgraphs m).mpr (Or.inr hm), (hfiles r).mp hr⟩))).1
  have hmem_live := hcreates.mem_live h.intact.manifest_le
  have hcurrent : e₁.current = e.current := by
    obtain ⟨_, _, _, _, rfl⟩ := hcreates.frame
    rfl
  have hsub : ∀ x ∈ (e.current.afterFlush m metas).files, x ∈ e₁.knownFiles := by
    intro x hx
    rcases Version.mem_files_afterFlush.mp hx with hx | hx
    · exact Or.inl (hcurrent ▸ hx)
    · exact Or.inr ((hmem_live x).mpr (Or.inr hx))
  obtain ⟨cache, hpublish, hintact⟩ := publish_rebuildIndex_spec hwf₁ hsub
  refine ⟨metas, e₁, cache, hcreates, hfiles, hlevel, hfault₁ hfault, hwf₁, hsub, ?_, hintact⟩
  rw [flushMemgraph, bind_of_ok get_apply, if_neg hedges, bind_of_ok hrun, bind_of_ok get_apply,
    hcurrent]
  exact hpublish

section AfterFlush

variable {m : MemGraphId} {metas : List CsrSegmentMeta}

/-- What the published version still has in memory. -/
theorem mem_memRecords_afterFlush {r : EdgeRecord} :
    r ∈ memRecords e.heap (e.current.afterFlush m metas) ↔
      ∃ id ∈ e.current.memgraphs, id ≠ m ∧ (e.heap id).Stores r := by
  simp only [memRecords, Version.afterFlush, Set.mem_ofPred_eq, List.mem_filter,
    decide_eq_true_iff, and_assoc]

theorem memRecords_afterFlush_subset :
    memRecords e.heap (e.current.afterFlush m metas) ⊆ e.unflushed := by
  intro r hr
  obtain ⟨id, hid, -, hr⟩ := mem_memRecords_afterFlush.mp hr
  exact ⟨id, hid, hr⟩

theorem memRecords_afterFlush_or {r : EdgeRecord} (hr : r ∈ e.unflushed) :
    r ∈ memRecords e.heap (e.current.afterFlush m metas) ∨ (e.heap m).Stores r := by
  obtain ⟨id, hid, hr⟩ := hr
  by_cases hidm : id = m
  · exact Or.inr (hidm ▸ hr)
  · exact Or.inl (mem_memRecords_afterFlush.mpr ⟨id, hid, hidm, hr⟩)

/-- What is still in a memgraph is not in the one that was flushed. -/
theorem Separated.memRecords_afterFlush (hsep : e.Separated) (hm : m ∈ e.current.memgraphs)
    {r : EdgeRecord} (hr : r ∈ memRecords e.heap (e.current.afterFlush m metas)) :
    ¬ (e.heap m).Stores r := by
  intro hrm
  obtain ⟨id, hid, hne, hr⟩ := mem_memRecords_afterFlush.mp hr
  exact hne (hsep.unique id hid m hm r hr hrm)

end AfterFlush

/-- **A background flush** moves the records of its memgraph to disk. -/
theorem runFlushTask_spec (h : e.WF) {m : MemGraphId} (hm : m ∈ e.running) (hfault : e.fault = none) :
    ∃ e', runFlushTask m e = .ok () e' ∧ e'.WF ∧ Flushes e e' m := by
  obtain ⟨metas, e₁, cache, hcreates, hfiles, hlevel, hfault₁, hwf₁, hsub, hrun, hintact⟩ :=
    flushMemgraph_spec h hm hfault
  have hactive : e.active ≠ m := fun heq => h.active_notMem (heq ▸ hm)
  have hmpub : m ∈ e.current.memgraphs := (h.mem_memgraphs m).mpr (Or.inr hm)
  have hlive := hcreates.mem_liveRecords h.intact
  have hold : fileRecords e₁.files e.current.files = fileRecords e.files e.current.files :=
    hcreates.fileRecords_eq h.intact fun _ => Or.inl
  have hmetas_live : ∀ x ∈ metas, x ∈ e₁.liveFiles := fun x hx =>
    (hcreates.mem_live h.intact.manifest_le x).mpr (Or.inr hx)
  have hts : ∀ r, (e.heap m).Stores r → r.ts ≤ e₁.manifestTs := by
    intro r hr
    obtain ⟨x, hx, hrx⟩ := (hfiles r).mpr hr
    exact ((hcreates.readable x hx).ts_le_maxTs hrx).trans
      (Manifest.maxTs_le_maxTs (hmetas_live x hx))
  have hmanifestTs := hcreates.manifestTs_le
  obtain ⟨files, manifest, next, fault, rfl⟩ := hcreates.frame
  have hnew : ∀ r, r ∈ fileRecords files (e.current.afterFlush m metas).files ↔
      r ∈ fileRecords e.files e.current.files ∨ (e.heap m).Stores r := by
    intro r
    rw [mem_fileRecords_or fun _ => Version.mem_files_afterFlush, ← hfiles, ← hold]
  have hmem : ∀ id, id ∈ (e.current.afterFlush m metas).memgraphs ↔
      id = e.active ∨ id ∈ e.running.filter fun id => id ≠ m := by
    intro id
    simp only [Version.afterFlush, List.mem_filter, decide_eq_true_iff, h.mem_memgraphs]
    constructor
    · rintro ⟨hid | hid, hne⟩
      · exact Or.inl hid
      · exact Or.inr ⟨hid, hne⟩
    · rintro (rfl | ⟨hid, hne⟩)
      · exact ⟨Or.inl rfl, hactive⟩
      · exact ⟨Or.inr hid, hne⟩
  have hsubset : memRecords e.heap (e.current.afterFlush m metas) ⊆ e.unflushed :=
    memRecords_afterFlush_subset
  have hseparated : e.Separated → ({ ({ e with
      files := files
      manifest := manifest
      nextFileId := next
      fault := fault } : Engine).republished (e.current.afterFlush m metas) cache with
        running := e.running.filter fun id => id ≠ m } : Engine).Separated := by
    refine fun hsep => ⟨fun id hid id' hid' => ?_, fun r hr hdisk => ?_, fun r hr hlive' => ?_⟩
    · exact hsep.unique id (List.mem_filter.mp hid).1 id' (List.mem_filter.mp hid').1
    · exact ((hnew r).mp hdisk).elim (hsep.notMem_disk r (hsubset hr))
        (hsep.memRecords_afterFlush hmpub hr)
    · exact ((hlive r).mp hlive').elim (hsep.notMem_live r (hsubset hr)) fun hr' =>
        hsep.memRecords_afterFlush hmpub hr ((hfiles r).mp hr')
  have hlevel_eq : ∀ i, ∀ x ∈ (e.current.afterFlush m metas).level i, x.level.toNat = i :=
    fun i x hx => ((h.placed.mono (Set.subset_univ _)).afterFlush
      (fun x hx => ⟨Set.mem_univ x, hlevel x hx⟩) i x hx).2
  refine ⟨_, (bind_of_ok hrun).trans (modify_apply _), hwf₁.republished hsub hintact hmem
    (fun id hid => (List.mem_filter.mp hid).1) hlevel_eq, ?_⟩
  refine
    { records_eq := ?_
      unflushed_sub := hsubset
      unflushed_or := fun r hr => memRecords_afterFlush_or hr
      mem_liveRecords := fun r => (hlive r).trans (or_congr_right (hfiles r))
      manifestTs_le := hmanifestTs
      ts_le_manifestTs := hts
      timestamp_eq := rfl
      fault_eq := hfault₁
      running_eq := rfl
      heap_eq := rfl
      active_eq := rfl
      separated := hseparated }
  ext r
  constructor
  · rintro (hr | hr)
    · exact Or.inl (hsubset hr)
    · exact ((hnew r).mp hr).symm.imp_left fun hr => ⟨m, hmpub, hr⟩
  · rintro (hr | hr)
    · exact (memRecords_afterFlush_or hr).imp_right fun hr => (hnew r).mpr (Or.inr hr)
    · exact Or.inr ((hnew r).mpr (Or.inl hr))

/-! ## Compactions -/

/-- What a compaction may do to the data: records of its inputs may go if a record of the same edge
that is at least as new stays, in the version as well as among the live files. -/
structure Compacts (inputs : Set EdgeRecord) (e e' : Engine) : Prop where
  memgraphs_eq : e'.current.memgraphs = e.current.memgraphs
  heap_eq : e'.heap = e.heap
  diskRecords_sub : e'.diskRecords ⊆ e.diskRecords
  kept : ∀ r ∈ e.records, r ∈ e'.records ∨
    r ∈ inputs ∧ ∃ r' ∈ e'.records, r' ∈ inputs ∧ r'.key = r.key ∧ r.ts ≤ r'.ts
  liveRecords_sub : e'.liveRecords ⊆ e.liveRecords ∪ e.diskRecords
  liveRecords_covers : Covers e'.liveRecords e.liveRecords
  manifestTs_le : e.manifestTs ≤ e'.manifestTs
  timestamp_eq : e'.timestamp = e.timestamp
  running_eq : e'.running = e.running
  active_eq : e'.active = e.active

/-- Doing nothing is a compaction of nothing. -/
theorem Compacts.refl (inputs : Set EdgeRecord) (e : Engine) : Compacts inputs e e where
  memgraphs_eq := rfl
  heap_eq := rfl
  diskRecords_sub := subset_rfl
  kept _ hr := Or.inl hr
  liveRecords_sub _ hr := Or.inl hr
  liveRecords_covers := Versioned.Covers.refl _
  manifestTs_le := le_rfl
  timestamp_eq := rfl
  running_eq := rfl
  active_eq := rfl

theorem Compacts.unflushed_eq {inputs : Set EdgeRecord} (h : Compacts inputs e e') :
    e'.unflushed = e.unflushed := by
  rw [unflushed, unflushed, memRecords, memRecords, h.heap_eq, h.memgraphs_eq]

theorem Compacts.records_sub {inputs : Set EdgeRecord} (h : Compacts inputs e e') :
    e'.records ⊆ e.records := by
  rintro r (hr | hr)
  · exact Or.inl (h.unflushed_eq.le hr)
  · exact Or.inr (h.diskRecords_sub hr)

/-- A compaction works on files only. -/
theorem Compacts.separated {inputs : Set EdgeRecord} (h : Compacts inputs e e')
    (hsep : e.Separated) : e'.Separated := by
  refine ⟨?_, fun r hr hdisk => ?_, fun r hr hlive => ?_⟩
  · rw [h.memgraphs_eq, h.heap_eq]
    exact hsep.unique
  · exact hsep.notMem_disk r (h.unflushed_eq.le hr) (h.diskRecords_sub hdisk)
  · exact (h.liveRecords_sub hlive).elim (hsep.notMem_live r (h.unflushed_eq.le hr))
      (hsep.notMem_disk r (h.unflushed_eq.le hr))

/-- What is kept covers what was there. -/
theorem Compacts.records_covers {inputs : Set EdgeRecord} (h : Compacts inputs e e') :
    Covers e'.records e.records := by
  intro r hr
  rcases h.kept r hr with hr' | ⟨-, r', hr', -, hkey, hts⟩
  · exact ⟨r, hr', rfl, le_rfl⟩
  · exact ⟨r', hr', hkey, hts⟩

/-- `next` makes of `v`, with the outputs of a compaction, the version in which they stand in for the
inputs. -/
structure Replaces (v : Version) (inputs : List CsrSegmentMeta)
    (next : List CsrSegmentMeta → Version) : Prop where
  mem_inputs : ∀ m ∈ inputs, m ∈ v.files
  memgraphs_eq : ∀ outputs, (next outputs).memgraphs = v.memgraphs
  mem_files : ∀ outputs m, m ∈ (next outputs).files ↔ m ∈ v.files ∧ m ∉ inputs ∨ m ∈ outputs
  level_eq : ∀ outputs : List CsrSegmentMeta, (∀ m ∈ outputs, m.level = L1) →
    ∀ i, ∀ m ∈ (next outputs).level i, m.level.toNat = i

/-- The records a compaction of `inputs` writes. -/
def merged (e : Engine) (inputs : List CsrSegmentMeta) : List EdgeRecord :=
  mergeLatestRecords (inputs.flatMap (segmentRecords e.files)) e.timestamp true

/-- Merging inputs none of which is ahead of the clock keeps a record that is at least as new for
each of their records. -/
theorem exists_mem_merged (hcoh : Coherent e.records) {inputs : List CsrSegmentMeta}
    (hsub : ∀ m ∈ inputs, m ∈ e.current.files) (hts : ∀ r ∈ e.records, r.ts ≤ e.timestamp)
    {r : EdgeRecord} (hr : r ∈ fileRecords e.files inputs) :
    ∃ r' ∈ e.merged inputs, r' ∈ fileRecords e.files inputs ∧ r'.key = r.key ∧ r.ts ≤ r'.ts := by
  have hinputs : fileRecords e.files inputs ⊆ e.records := fun x ⟨m, hm, hx⟩ =>
    Or.inr ⟨m, hsub m hm, hx⟩
  have hset : {x | x ∈ inputs.flatMap (segmentRecords e.files)} = fileRecords e.files inputs :=
    Set.ext fun x => mem_flatMap_segmentRecords
  have hcoh' : Coherent {x | x ∈ inputs.flatMap (segmentRecords e.files)} :=
    hset ▸ hcoh.mono hinputs
  obtain ⟨r', hr', hkey, hle⟩ := covers_mergeLatestRecords (s := e.timestamp) hcoh' r
    ⟨hset ▸ hr, hts r (hinputs hr)⟩
  exact ⟨r', hr', hset ▸ (mem_of_mem_mergeLatestRecords hr').1, hkey, hle⟩

/-- What a compaction writes are records of its inputs. -/
theorem mem_of_mem_merged {inputs : List CsrSegmentMeta} {r : EdgeRecord} (hr : r ∈ e.merged inputs) :
    r ∈ fileRecords e.files inputs :=
  mem_flatMap_segmentRecords.mp (mem_of_mem_mergeLatestRecords hr).1

/-- Created files that hold records of the version only add to what is covered. -/
theorem Creates.compacts (h : Creates e e' ms) (hwf : e.WF) (inputs : Set EdgeRecord)
    (hms : ∀ r ∈ fileRecords e'.files ms, r ∈ e.diskRecords) : e'.WF ∧ Compacts inputs e e' := by
  obtain ⟨hwf', hdisk, hunflushed⟩ := h.wf hwf fun r hr =>
    hwf.ts_le r (Or.inl (Or.inr (hms r hr)))
  have hlive := h.mem_liveRecords hwf.intact
  have hframe := h.frame
  refine ⟨hwf', ?_⟩
  refine
    { memgraphs_eq := ?_
      heap_eq := ?_
      diskRecords_sub := hdisk.le
      kept := fun r hr => Or.inl (hr.imp (fun hr => hunflushed.ge hr) fun hr => hdisk.ge hr)
      liveRecords_sub := fun r hr => ((hlive r).mp hr).imp_right (hms r)
      liveRecords_covers := .of_subset fun r hr => (hlive r).mpr (Or.inl hr)
      manifestTs_le := h.manifestTs_le
      timestamp_eq := ?_
      running_eq := ?_
      active_eq := ?_ } <;>
  · obtain ⟨_, _, _, _, rfl⟩ := hframe
    rfl

/-- Deleting inputs whose records are all covered by new files keeps the live files covering. -/
theorem liveRecords_covers_of_deletes {e'' : Engine} {ids : List FileId}
    {inputs : List CsrSegmentMeta} (hwf : e.WF) (hcoh : Coherent e.records)
    (hsub : ∀ m ∈ inputs, m ∈ e.current.files) (hcreates : Creates e e' ms)
    (hmerged : ∀ r, r ∈ fileRecords e'.files ms ↔ r ∈ e.merged inputs)
    (hdeletes : Deletes e' e'' ids) (hids : ids ⊆ inputs.map CsrSegmentMeta.fileId) :
    Covers e''.liveRecords e.liveRecords := by
  have hfiles : e''.files = e'.files := by
    obtain ⟨_, _, rfl⟩ := hdeletes.frame
    rfl
  have hmem_live := hcreates.mem_live hwf.intact.manifest_le
  -- the outputs are live, for their ids are new
  have houtputs : ∀ r ∈ fileRecords e'.files ms, r ∈ e''.liveRecords := by
    rintro r ⟨m, hm, hr⟩
    refine ⟨m, (hdeletes.mem_live m).mpr ⟨(hmem_live m).mpr (Or.inr hm), fun hid => ?_⟩, hfiles ▸ hr⟩
    obtain ⟨x, hx, hxid⟩ := List.mem_map.mp (hids hid)
    have hlt := hwf.intact.fileId_lt x (Or.inl (hsub x hx))
    exact absurd hxid (hlt.trans_le (hcreates.fresh m hm).1).ne
  rintro r ⟨m, hm, hr⟩
  by_cases hid : m.fileId ∈ ids
  · -- a deleted file was an input, so its records are superseded by the outputs
    obtain ⟨x, hx, hxid⟩ := List.mem_map.mp (hids hid)
    have hxm : x = m := hwf.intact.injOn (Or.inl (hsub x hx)) (Or.inr hm) hxid
    obtain ⟨r', hr', -, hkey, hts⟩ := exists_mem_merged hcoh hsub
      (fun r hr => hwf.ts_le r (Or.inl hr)) ⟨x, hx, hxm ▸ hr⟩
    exact ⟨r', houtputs r' ((hmerged r').mpr hr'), hkey, hts⟩
  · have hlive : m ∈ e''.liveFiles := (hdeletes.mem_live m).mpr ⟨(hmem_live m).mpr (Or.inl hm), hid⟩
    have hseg : segmentRecords e'.files m = segmentRecords e.files m :=
      segmentRecords_congr (hcreates.files_eq _ _ (hwf.intact.fileId_lt m (Or.inr hm)))
    exact ⟨r, ⟨m, hlive, by rwa [hfiles, hseg]⟩, rfl, le_rfl⟩

/-- Deleting some more files in the manifest, as long as the rest covers. -/
theorem Compacts.deletes {inputs : Set EdgeRecord} {e'' : Engine} {ids : List FileId}
    (h : Compacts inputs e e') (hwf : e'.WF) (hdeletes : Deletes e' e'' ids)
    (hcovers : Covers e''.liveRecords e.liveRecords) : Compacts inputs e e'' := by
  obtain ⟨-, hdisk, hunflushed⟩ := hdeletes.wf hwf
  have hrecords : e''.records = e'.records := congrArg₂ (· ∪ ·) hunflushed hdisk
  have hmem_live := hdeletes.mem_live
  have hmanifestTs := hdeletes.manifestTs_eq
  have hframe := hdeletes.frame
  refine
    { memgraphs_eq := ?_
      heap_eq := ?_
      diskRecords_sub := hdisk ▸ h.diskRecords_sub
      kept := hrecords ▸ h.kept
      liveRecords_sub := ?_
      liveRecords_covers := hcovers
      manifestTs_le := hmanifestTs ▸ h.manifestTs_le
      timestamp_eq := ?_
      running_eq := ?_
      active_eq := ?_ }
  all_goals obtain ⟨_, _, rfl⟩ := hframe
  · exact h.memgraphs_eq
  · exact h.heap_eq
  · refine subset_trans ?_ h.liveRecords_sub
    rintro r ⟨m, hm, hr⟩
    exact ⟨m, ((hmem_live m).mp hm).1, hr⟩
  · exact h.timestamp_eq
  · exact h.running_eq
  · exact h.active_eq

/-- Publishing the version in which the outputs stand in for the inputs. -/
theorem publish_compacts {e₁ e₂ : Engine} {inputs outputs : List CsrSegmentMeta} {ids : List FileId}
    {next : Version → List CsrSegmentMeta → Version} (h : e.WF) (hcoh : Coherent e.records)
    (hnext : Replaces e.current inputs (next e.current)) (hcreates : Creates e e₁ outputs)
    (hfiles : ∀ r, r ∈ fileRecords e₁.files outputs ↔ r ∈ e.merged inputs)
    (hlevel : ∀ m ∈ outputs, m.level = L1) (hdeletes : Deletes e₁ e₂ ids) (hwf₂ : e₂.WF)
    (hids : ids ⊆ inputs.map CsrSegmentMeta.fileId)
    (hcompacts : Compacts (fileRecords e.files inputs) e e₂) :
    ∃ e', (do publish (next e₂.current outputs); rebuildIndex; pure outputs) e₂ = .ok outputs e' ∧
      e'.WF ∧ Compacts (fileRecords e.files inputs) e e' ∧ e'.fault = e₂.fault := by
  have hsub := hnext.mem_inputs
  have hold : ∀ m ∈ e.current.files, segmentRecords e₁.files m = segmentRecords e.files m :=
    fun m hm => segmentRecords_congr (hcreates.files_eq _ _ (h.intact.fileId_lt m (Or.inl hm)))
  -- an output's number is fresh, so no deleted input has it
  have houtputs : ∀ m ∈ outputs, m ∈ e₂.liveFiles := by
    intro m hm
    refine (hdeletes.mem_live m).mpr
      ⟨(hcreates.mem_live h.intact.manifest_le m).mpr (Or.inr hm), fun hid => ?_⟩
    obtain ⟨x, hx, hxid⟩ := List.mem_map.mp (hids hid)
    have hlt := h.intact.fileId_lt x (Or.inl (hsub x hx))
    exact absurd hxid (hlt.trans_le (hcreates.fresh m hm).1).ne
  have hcurrent : e₂.current = e.current := by
    obtain ⟨_, _, rfl⟩ := hdeletes.frame
    obtain ⟨_, _, _, _, rfl⟩ := hcreates.frame
    rfl
  have hfiles₂ : e₂.files = e₁.files := by
    obtain ⟨_, _, rfl⟩ := hdeletes.frame
    rfl
  have hknown : ∀ m ∈ (next e₂.current outputs).files, m ∈ e₂.knownFiles := by
    intro m hm
    rw [hcurrent, hnext.mem_files] at hm
    exact hm.imp (fun hm => hcurrent ▸ hm.1) (houtputs m)
  obtain ⟨cache, hpublish, hintact⟩ := publish_rebuildIndex_spec hwf₂ hknown
  have hwf' : (e₂.republished (next e₂.current outputs) cache).WF :=
    hwf₂.republished hknown hintact
      (fun id => by rw [hcurrent, hnext.memgraphs_eq, ← hcurrent, hwf₂.mem_memgraphs])
      (fun _ => id) (hcurrent ▸ hnext.level_eq outputs hlevel)
  have hunflushed : (e₂.republished (next e₂.current outputs) cache).unflushed = e₂.unflushed := by
    rw [unflushed, unflushed, memRecords, memRecords, republished]
    simp only [hcurrent, hnext.memgraphs_eq]
  -- what the published version holds: the files left in place, and the merge of the inputs
  have hmem : ∀ r, r ∈ (e₂.republished (next e₂.current outputs) cache).diskRecords ↔
      (∃ m ∈ e.current.files, m ∉ inputs ∧ r ∈ segmentRecords e.files m) ∨
        r ∈ e.merged inputs := by
    intro r
    rw [← hfiles, diskRecords, republished]
    simp only [fileRecords, Set.mem_ofPred_eq, hcurrent, hnext.mem_files, hfiles₂, or_and_right,
      exists_or, and_assoc]
    refine or_congr_left (exists_congr fun m => and_congr_right fun hm => ?_)
    rw [hold m hm]
  refine ⟨_, ?_, hwf', ?_, rfl⟩
  · exact (bind_of_ok (modify_apply _)).trans (bind_of_ok hpublish)
  · refine
      { hcompacts with
        memgraphs_eq := by rw [republished, hcurrent, hnext.memgraphs_eq]
        diskRecords_sub := fun r hr => ?_
        kept := fun r hr => ?_ }
    · rcases (hmem r).mp hr with ⟨m, hm, -, hr⟩ | hr
      · exact ⟨m, hm, hr⟩
      · obtain ⟨m, hm, hr⟩ := mem_of_mem_merged hr
        exact ⟨m, hsub m hm, hr⟩
    · rcases hr with hr | ⟨m, hm, hr⟩
      · exact Or.inl (Or.inl ((hunflushed.trans hcompacts.unflushed_eq).ge hr))
      · -- a record of an input may be gone, but then a newer one of its key was merged
        by_cases hinput : m ∈ inputs
        · obtain ⟨r', hr', hr'in, hkey, hts⟩ := exists_mem_merged hcoh hsub
            (fun r hr => h.ts_le r (Or.inl hr)) ⟨m, hinput, hr⟩
          exact Or.inr ⟨⟨m, hinput, hr⟩, r', Or.inr ((hmem r').mpr (Or.inr hr')), hr'in, hkey, hts⟩
        · exact Or.inl (Or.inr ((hmem r).mpr (Or.inl ⟨m, hm, hinput, hr⟩)))

/-- A compaction merges its inputs as of the clock, and then writes, deletes and publishes. -/
theorem compactFiles_eq (h : e.WF) {inputs : List CsrSegmentMeta}
    (hsub : ∀ m ∈ inputs, m ∈ e.current.files) (cut : List EdgeRecord → List (List EdgeRecord))
    (next : Version → List CsrSegmentMeta → Version) :
    compactFiles inputs cut next e = (do
      let outputs ← createFiles L1 (cut (e.merged inputs))
      deleteFiles inputs
      let old := (← get).current
      publish (next old outputs)
      rebuildIndex
      pure outputs) e := by
  have hread : readAllFiles e.files inputs = .ok (inputs.flatMap (segmentRecords e.files)) :=
    readAllFiles_spec fun m hm => (h.readable (hsub m hm)).2
  rw [compactFiles, bind_of_ok get_apply, hread]
  exact (bind_of_ok (pure_apply _)).trans
    (bind_of_ok (show currentSnapshot e = .ok e.timestamp e from rfl))

/-- Merging some files leaves something. -/
theorem merged_ne_nil (h : e.WF) (hcoh : Coherent e.records) {inputs : List CsrSegmentMeta}
    (hne : inputs ≠ []) (hsub : ∀ m ∈ inputs, m ∈ e.current.files) : e.merged inputs ≠ [] := by
  obtain ⟨m, hm⟩ := List.exists_mem_of_ne_nil inputs hne
  obtain ⟨r, hr⟩ := (h.readable (hsub m hm)).2.exists_mem
  obtain ⟨r', hr', -⟩ :=
    exists_mem_merged hcoh hsub (fun r hr => h.ts_le r (Or.inl hr)) ⟨m, hm, hr⟩
  exact List.ne_nil_of_mem hr'

/-- **Compaction.** Under any I/O fault, a compaction of files of the current version either
completes or stops with an I/O error, and in both cases it only drops superseded records. -/
theorem compactFiles_spec (h : e.WF) (hcoh : Coherent e.records) {inputs : List CsrSegmentMeta}
    (cut : List EdgeRecord → List (List EdgeRecord))
    (next : Version → List CsrSegmentMeta → Version) (hne : inputs ≠ [])
    (hcut : ∀ l, l ≠ [] → [] ∉ cut l ∧ (cut l).flatten.Perm l)
    (hnext : Replaces e.current inputs (next e.current)) :
    (∃ outputs e', compactFiles inputs cut next e = .ok outputs e' ∧ e'.WF ∧
        Compacts (fileRecords e.files inputs) e e' ∧ (e.fault = none → e'.fault = none)) ∨
      ∃ e', compactFiles inputs cut next e = .error .io e' ∧ e.fault ≠ none ∧ e'.WF ∧
        Compacts (fileRecords e.files inputs) e e' := by
  have hsub := hnext.mem_inputs
  have hinputs : fileRecords e.files inputs ⊆ e.diskRecords := fun x ⟨m, hm, hx⟩ =>
    ⟨m, hsub m hm, hx⟩
  obtain ⟨hnil, hperm⟩ := hcut _ (merged_ne_nil h hcoh hne hsub)
  rw [compactFiles_eq h hsub]
  rcases createFiles_spec L1 hnil e with
    ⟨outputs, e₁, hrun, hcreates, hstored, hlevel, hfault⟩ | ⟨ms, e₁, hrun, hfault, hcreates, hms⟩
  · have hfiles : ∀ r, r ∈ fileRecords e₁.files outputs ↔ r ∈ e.merged inputs := fun r => by
      rw [fileRecords_of_forall₂ hstored]
      exact hperm.mem_iff
    have hnew : ∀ r ∈ fileRecords e₁.files outputs, r ∈ e.diskRecords := fun r hr =>
      hinputs (mem_of_mem_merged ((hfiles r).mp hr))
    obtain ⟨hwf₁, hcompacts⟩ := hcreates.compacts h (fileRecords e.files inputs) hnew
    rw [bind_of_ok hrun]
    rcases deleteFiles_spec inputs e₁ with
      ⟨e₂, hdel, hdeletes, hfault₂⟩ | ⟨ids, e₂, hdel, hfault₂, hdeletes, hids⟩
    · have hcovers := liveRecords_covers_of_deletes h hcoh hsub hcreates hfiles hdeletes
        (List.Subset.refl _)
      obtain ⟨e', hpublish, hwf', hcompacts', hfault'⟩ := publish_compacts h hcoh hnext hcreates
        hfiles hlevel hdeletes (hdeletes.wf hwf₁).1 (List.Subset.refl _)
        (hcompacts.deletes hwf₁ hdeletes hcovers)
      refine Or.inl ⟨outputs, e', ?_, hwf', hcompacts', fun hnone => ?_⟩
      · rw [bind_of_ok hdel, bind_of_ok get_apply]
        exact hpublish
      · rw [hfault', hfault₂ (hfault hnone)]
    · have hcovers := liveRecords_covers_of_deletes h hcoh hsub hcreates hfiles hdeletes hids
      exact Or.inr ⟨e₂, bind_of_error hdel, fun hnone => hfault₂ (hfault hnone),
        (hdeletes.wf hwf₁).1, hcompacts.deletes hwf₁ hdeletes hcovers⟩
  · have hnew : ∀ r ∈ fileRecords e₁.files ms, r ∈ e.diskRecords := by
      rintro r ⟨m, hm, hr⟩
      obtain ⟨⟨edges, hedges, hstored⟩, -⟩ := hms m hm
      rw [segmentRecords_of_stored hstored, mem_sortByKey] at hr
      exact hinputs (mem_of_mem_merged (hperm.mem_iff.mp (List.mem_flatten_of_mem hedges hr)))
    obtain ⟨hwf₁, hcompacts⟩ := hcreates.compacts h (fileRecords e.files inputs) hnew
    exact Or.inr ⟨e₁, bind_of_error hrun, hfault, hwf₁, hcompacts⟩

/-! ## The two compactions -/

/-- The files a full compaction merges; none if it returns early. -/
def fullInputs (e : Engine) (force : Bool) : List CsrSegmentMeta :=
  if e.current.level 0 = [] then []
  else if !force ∧ (e.current.level 0).length < e.config.l0FileThreshold then []
  else e.current.level 0 ++ e.current.level 1

/-- The files a partial compaction merges; none if it returns early. -/
def targetInputs (e : Engine) (target : L0CompactionTarget) : List CsrSegmentMeta :=
  if selectL0 e.current target = [] then []
  else selectL0 e.current target ++ selectL1 e.current target (selectL0 e.current target)

/-- A full compaction puts its output in the place of both lower levels. -/
theorem replaces_full (h : e.WF) :
    Replaces e.current (e.current.level 0 ++ e.current.level 1) e.current.afterFullCompaction where
  mem_inputs m hm := by
    rcases List.mem_append.mp hm with hm | hm
    · exact Version.mem_files.mpr ⟨0, hm⟩
    · exact Version.mem_files.mpr ⟨1, hm⟩
  memgraphs_eq _ := rfl
  mem_files _ _ := h.placed.mem_files_afterFullCompaction
  level_eq outputs hlevel i m hm :=
    ((h.placed.mono (Set.subset_univ _)).afterFullCompaction
      (fun x hx => ⟨Set.mem_univ x, hlevel x hx⟩) i m hm).2

/-- A partial compaction puts its outputs in the place of the files it selected. -/
theorem replaces_target (h : e.WF) (selectedL0 selectedL1 : List CsrSegmentMeta)
    (h0 : ∀ m ∈ selectedL0, m ∈ e.current.level 0) (h1 : ∀ m ∈ selectedL1, m ∈ e.current.level 1) :
    Replaces e.current (selectedL0 ++ selectedL1)
      (e.current.afterTargetCompaction selectedL0 selectedL1) where
  mem_inputs m hm := by
    rcases List.mem_append.mp hm with hm | hm
    · exact Version.mem_files.mpr ⟨0, h0 m hm⟩
    · exact Version.mem_files.mpr ⟨1, h1 m hm⟩
  memgraphs_eq _ := rfl
  mem_files outputs m := by
    have hlevel : ∀ {i : Nat} {level : LevelId}, level.toNat = i → ∀ x ∈ e.current.level i,
        x ∈ e.knownFiles ∧ x.level = level := fun hi x hx =>
      ⟨(h.placed _ x hx).1, UInt8.toNat_inj.mp ((h.placed _ x hx).2.trans hi.symm)⟩
    exact h.placed.mem_files_afterTargetCompaction h.intact.injOn
      (fun x hx => hlevel rfl x (h0 x hx)) fun x hx => hlevel rfl x (h1 x hx)
  level_eq outputs hlevel i m hm :=
    ((h.placed.mono (Set.subset_univ _)).afterTargetCompaction
      (fun x hx => ⟨Set.mem_univ x, hlevel x hx⟩) i m hm).2

/-! ## Waiting -/

/-- The state after all handles were awaited. -/
def waited (e : Engine) : Engine := { e with flushTasks := [] }

theorem waited_spec (h : e.WF) (hrunning : e.running = []) : e.waited.WF ∧ SameData e e.waited :=
  ⟨{ h with
    intact := h.intact.congr rfl rfl rfl rfl
    mem_flushTasks := fun id hid => by
      rw [waited, hrunning] at hid
      exact absurd hid List.not_mem_nil }, rfl, rfl, rfl, rfl, rfl, rfl,
    fun hsep => ⟨hsep.unique, hsep.notMem_disk, hsep.notMem_live⟩⟩

/-- **Waiting** is over when no flush is running. -/
theorem waitForFlushes_cases (h : e.WF) :
    waitForFlushes e = .error .blocked e ∧ e.running ≠ [] ∨
      waitForFlushes e = .ok () e.waited ∧ e.running = [] := by
  rw [waitForFlushes]
  by_cases hany : e.flushTasks.any (· ∈ e.running) = true
  · rw [if_pos hany]
    refine Or.inl ⟨rfl, fun hnil => ?_⟩
    obtain ⟨id, -, hid⟩ := List.any_eq_true.mp hany
    rw [hnil, decide_eq_true_iff] at hid
    exact absurd hid List.not_mem_nil
  · rw [if_neg hany]
    refine Or.inr ⟨rfl, List.eq_nil_iff_forall_not_mem.mpr fun id hid => hany ?_⟩
    exact List.any_eq_true.mpr ⟨id, h.mem_flushTasks id hid, decide_eq_true hid⟩

/-! ## Outcomes of a compaction -/

/-- How a compaction of `inputs` may end: it completes, it is stopped by an I/O fault, or it still
waits for a flush. In the first two cases only superseded records are gone. -/
def Outcome (e : Engine) (inputs : List CsrSegmentMeta) {α : Type} :
    EStateM.Result EngineError Engine α → Prop
  | .ok _ e' =>
      e.running = [] ∧ e'.WF ∧ Compacts (fileRecords e.files inputs) e e' ∧
        (e.fault = none → e'.fault = none)
  | .error .io e' =>
      e.running = [] ∧ e'.WF ∧ Compacts (fileRecords e.files inputs) e e' ∧ e.fault ≠ none
  | .error .blocked e' => e.running ≠ [] ∧ e' = e
  | .error _ _ => False

/-- Waiting first does not matter. -/
theorem Compacts.of_waited {inputs : Set EdgeRecord} (h : Compacts inputs e.waited e') :
    Compacts inputs e e' :=
  { h with }

/-- **Full compaction.** -/
theorem compactL0ToL1Inner_outcome (h : e.WF) (hcoh : Coherent e.records) (force : Bool) :
    Outcome e (e.fullInputs force) (compactL0ToL1Inner force e) := by
  rcases waitForFlushes_cases h with ⟨hwait, hrunning⟩ | ⟨hwait, hrunning⟩
  · rw [compactL0ToL1Inner, bind_of_error hwait]
    exact ⟨hrunning, rfl⟩
  · rw [compactL0ToL1Inner, bind_of_ok hwait, bind_of_ok get_apply]
    have hwf := (waited_spec h hrunning).1
    have hearly : Outcome e [] ((pure none : EngineM (Option CsrSegmentMeta)) e.waited) :=
      ⟨hrunning, hwf, (Compacts.refl _ _).of_waited, id⟩
    by_cases hl0 : e.current.level 0 = []
    · rw [if_pos (show e.waited.current.level L0.toNat = [] from hl0), fullInputs, if_pos hl0]
      exact hearly
    rw [if_neg (show ¬ e.waited.current.level L0.toNat = [] from hl0), fullInputs, if_neg hl0]
    by_cases hsmall : (!force) = true ∧ (e.current.level 0).length < e.config.l0FileThreshold
    · rw [if_pos (show (!force) = true ∧ (e.waited.current.level L0.toNat).length <
        e.waited.config.l0FileThreshold from hsmall), if_pos hsmall]
      exact hearly
    rw [if_neg (show ¬ ((!force) = true ∧ (e.waited.current.level L0.toNat).length <
      e.waited.config.l0FileThreshold) from hsmall), if_neg hsmall]
    have hcut : ∀ l : List EdgeRecord, l ≠ [] → [] ∉ [l] ∧ ([l].flatten).Perm l := fun l hl =>
      ⟨fun hmem => hl (List.mem_singleton.mp hmem).symm, by simp⟩
    have hne : e.waited.current.level 0 ++ e.waited.current.level 1 ≠ [] :=
      List.append_ne_nil_of_left_ne_nil hl0 _
    rcases compactFiles_spec hwf hcoh (fun l => [l]) Version.afterFullCompaction hne hcut
      (replaces_full hwf) with
      ⟨outputs, e', hrun, hwf', hcompacts, hfault⟩ | ⟨e', hrun, hfault, hwf', hcompacts⟩
    · rw [bind_of_ok (show compactFiles (e.waited.current.level L0.toNat ++
        e.waited.current.level L1.toNat) _ _ e.waited = _ from hrun)]
      exact ⟨hrunning, hwf', hcompacts.of_waited, hfault⟩
    · rw [bind_of_error (show compactFiles (e.waited.current.level L0.toNat ++
        e.waited.current.level L1.toNat) _ _ e.waited = _ from hrun)]
      exact ⟨hrunning, hwf', hcompacts.of_waited, hfault⟩

/-- **Partial compaction.** -/
theorem compactL0TargetToL1_outcome (h : e.WF) (hcoh : Coherent e.records)
    (target : L0CompactionTarget) :
    Outcome e (e.targetInputs target) (compactL0TargetToL1 target e) := by
  rcases waitForFlushes_cases h with ⟨hwait, hrunning⟩ | ⟨hwait, hrunning⟩
  · rw [compactL0TargetToL1, bind_of_error hwait]
    exact ⟨hrunning, rfl⟩
  · rw [compactL0TargetToL1, bind_of_ok hwait, bind_of_ok get_apply]
    have hwf := (waited_spec h hrunning).1
    by_cases hl0 : selectL0 e.current target = []
    · rw [if_pos (show selectL0 e.waited.current target = [] from hl0), targetInputs, if_pos hl0]
      exact ⟨hrunning, hwf, (Compacts.refl _ _).of_waited, id⟩
    rw [if_neg (show ¬ selectL0 e.waited.current target = [] from hl0), targetInputs, if_neg hl0]
    have hcut : ∀ l : List EdgeRecord, l ≠ [] →
        [] ∉ splitCompactionSegments l e.config.segmentTargetBytes ∧
          (splitCompactionSegments l e.config.segmentTargetBytes).flatten.Perm l := fun l _ =>
      ⟨nil_notMem_splitCompactionSegments _ _, perm_splitCompactionSegments _ _⟩
    have hreplaces := replaces_target hwf (selectL0 e.waited.current target)
      (selectL1 e.waited.current target (selectL0 e.waited.current target))
      (fun m hm => List.mem_of_mem_filter hm) (fun m hm => List.mem_of_mem_filter hm)
    have hne := List.append_ne_nil_of_left_ne_nil hl0
      (selectL1 e.current target (selectL0 e.current target))
    rcases compactFiles_spec hwf hcoh _ (fun old outputs => old.afterTargetCompaction
      (selectL0 e.waited.current target)
      (selectL1 e.waited.current target (selectL0 e.waited.current target)) outputs)
      hne hcut hreplaces with
      ⟨outputs, e', hrun, hwf', hcompacts, hfault⟩ | ⟨e', hrun, hfault, hwf', hcompacts⟩
    · exact (show compactFiles _ _ _ e.waited = _ from hrun) ▸
        ⟨hrunning, hwf', hcompacts.of_waited, hfault⟩
    · exact (show compactFiles _ _ _ e.waited = _ from hrun) ▸
        ⟨hrunning, hwf', hcompacts.of_waited, hfault⟩

/-- The files the end of `flush_active` merges. -/
def finishInputs (e : Engine) : List CsrSegmentMeta :=
  if e.config.autoCompaction then e.fullInputs false else []

/-- **The end of `flush_active`.** -/
theorem finishFlushActive_outcome (h : e.WF) (hcoh : Coherent e.records) :
    Outcome e e.finishInputs (finishFlushActive e) := by
  rcases waitForFlushes_cases h with ⟨hwait, hrunning⟩ | ⟨hwait, hrunning⟩
  · rw [finishFlushActive, bind_of_error hwait]
    exact ⟨hrunning, rfl⟩
  · rw [finishFlushActive, bind_of_ok hwait, bind_of_ok get_apply]
    have hwf := (waited_spec h hrunning).1
    by_cases hauto : e.config.autoCompaction = true
    · rw [if_pos (show e.waited.config.autoCompaction = true from hauto), finishInputs, if_pos hauto]
      have hinner := compactL0ToL1Inner_outcome hwf hcoh false
      cases hrun : compactL0ToL1Inner false e.waited with
      | ok a e' =>
          rw [hrun] at hinner
          obtain ⟨-, hwf', hcompacts, hfault⟩ := hinner
          rw [bind_of_ok hrun]
          exact ⟨hrunning, hwf', hcompacts.of_waited, hfault⟩
      | error err e' =>
          rw [hrun] at hinner
          rw [bind_of_error hrun]
          cases err with
          | io =>
              obtain ⟨-, hwf', hcompacts, hfault⟩ := hinner
              exact ⟨hrunning, hwf', hcompacts.of_waited, hfault⟩
          | blocked => exact absurd hrunning hinner.1
          | decode => exact hinner
          | overflow => exact hinner
    · rw [if_neg (show ¬ e.waited.config.autoCompaction = true from hauto), finishInputs, if_neg hauto]
      exact ⟨hrunning, hwf, (Compacts.refl _ _).of_waited, id⟩

/-! ## Opening a directory -/

/-- The levels after `open` hold the live files. -/
theorem mem_level_initial (config : LsmGraphConfig) (files : StoreFiles)
    {manifest : List ManifestRecord} {i : Nat} {m : CsrSegmentMeta} :
    m ∈ (initial config files manifest).current.level i ↔
      m ∈ (Manifest.load manifest).liveFiles ∧ m.level.toNat = i := by
  rw [Version.level, initial, (perm_getD_splitLevels _ _ _).mem_iff, List.mem_filter,
    decide_eq_true_iff]

theorem mem_files_initial {config : LsmGraphConfig} {files : StoreFiles}
    {manifest : List ManifestRecord} {m : CsrSegmentMeta} :
    m ∈ (initial config files manifest).current.files ↔ m ∈ (Manifest.load manifest).liveFiles := by
  rw [Version.mem_files]
  simp only [mem_level_initial, exists_and_left, exists_eq', and_true]

/-- The live files are intact for an engine that was just opened. -/
theorem intact_initial (config : LsmGraphConfig) {files : StoreFiles}
    {manifest : List ManifestRecord}
    (hread : ∀ m ∈ (Manifest.load manifest).liveFiles, Readable files m) :
    (initial config files manifest).Intact {m | m ∈ (Manifest.load manifest).liveFiles} where
  readable := hread
  fileId_lt _ hm := Manifest.fileId_lt_nextFileId hm
  injOn := injOn_of_ascending (Manifest.wf_replay manifest).ascending
  live_mem _ hm := hm
  manifest_le := le_rfl
  cached_lt id metadata hlookup := by simp [initial, CsrMetadataCache.new] at hlookup
  agrees id metadata hlookup := by simp [initial, CsrMetadataCache.new] at hlookup

/-- **Opening a directory** whose live files are readable gives access to their records, and to
nothing else. -/
theorem openDir_spec (config : LsmGraphConfig) (files : StoreFiles) (manifest : List ManifestRecord)
    (hread : ∀ m ∈ (Manifest.load manifest).liveFiles, Readable files m) :
    ∃ e', openDir config files manifest = .ok () e' ∧ e'.WF ∧
      e'.records = fileRecords files (Manifest.load manifest).liveFiles ∧
      e'.liveRecords = fileRecords files (Manifest.load manifest).liveFiles ∧
      (∀ r, r ∉ e'.unflushed) ∧ e'.manifestTs = (Manifest.load manifest).maxTs ∧
      e'.timestamp = (Manifest.load manifest).maxTs ∧ e'.running = [] ∧ e'.fault = none := by
  have hintact := intact_initial config hread
  have hfiles : ∀ m ∈ (initial config files manifest).current.files,
      m ∈ {m | m ∈ (Manifest.load manifest).liveFiles} := fun m hm => mem_files_initial.mp hm
  obtain ⟨cache, hrun, hintact'⟩ := rebuildIndex_spec hintact hfiles
  have hunflushed : ∀ r, r ∉ memRecords (initial config files manifest).heap
      (initial config files manifest).current := by
    rintro r ⟨id, -, hr⟩
    exact MemGraph.not_stores_new _ _ r hr
  have hrecords : versionRecords files (initial config files manifest).heap
      (initial config files manifest).current =
        fileRecords files (Manifest.load manifest).liveFiles := by
    ext r
    have hor : r ∈ versionRecords files (initial config files manifest).heap
        (initial config files manifest).current ↔
          r ∈ fileRecords files (initial config files manifest).current.files :=
      or_iff_right (hunflushed r)
    rw [hor]
    simp only [fileRecords, Set.mem_ofPred_eq, mem_files_initial]
  have hts : ∀ r ∈ fileRecords files (Manifest.load manifest).liveFiles,
      r.ts ≤ (Manifest.load manifest).maxTs := by
    rintro r ⟨m, hm, hr⟩
    exact ((hread m hm).ts_le_maxTs hr).trans (Manifest.maxTs_le_maxTs hm)
  refine ⟨_, hrun, ?_, hrecords, rfl, hunflushed, rfl, rfl, rfl, rfl⟩
  exact
    { intact := hintact'.mono (fun m hm => hm.elim (hfiles m) id) fun m hm => Or.inr hm
      memgraph := fun id => MemGraph.wf_new _ _
      mem_memgraphs := fun id => by simp [initial]
      active_notMem := List.not_mem_nil
      memgraph_lt := fun id hid => by
        rw [List.mem_singleton.mp hid]
        exact Nat.zero_lt_one
      running_nonempty := fun _ hid => absurd hid List.not_mem_nil
      mem_flushTasks := fun _ hid => absurd hid List.not_mem_nil
      level_eq := fun i m hm => ((mem_level_initial config files).mp hm).2
      index_eq := rfl
      ts_le := fun r hr => hts r (hr.elim (fun hr => hrecords.le hr) id)
      manifestTs_le := le_rfl }

end Engine

end LsmGraph
