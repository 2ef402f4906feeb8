import LsmGraph.Engine.Files

/-! # The invariant of a quiet engine

`Engine.WF` ties the parts of an engine together between two operations of a single client: the
published memgraphs are the active one and those still being flushed, every file of the current
version and of the manifest is intact, each file lies on the level the version keeps it on, the
index is that of the current version, and no stored timestamp is ahead of the clock. Under it reads
return the merge of everything the version gives access to (`getNeighborsTypedInternal_eq`,
`scanEdges_eq`), and what an operation does to the data is stated on the three sets `records`,
`unflushed` and `liveRecords`. -/

namespace LsmGraph

open KeyedSort ErrorState CsrReader

namespace Engine

variable {e e' : Engine}

/-! ## The data of an engine -/

/-- Everything a reader of the current version has access to. -/
def records (e : Engine) : Set EdgeRecord := versionRecords e.files e.heap e.current

/-- The part of it that is in memgraphs. -/
def unflushed (e : Engine) : Set EdgeRecord := memRecords e.heap e.current

/-- The part of it that is in files. -/
def diskRecords (e : Engine) : Set EdgeRecord := fileRecords e.files e.current.files

/-- What the live files of the manifest hold; after a crash this is all there is. -/
def liveRecords (e : Engine) : Set EdgeRecord := fileRecords e.files e.liveFiles

/-- The files of the current version and of the manifest. -/
def knownFiles (e : Engine) : Set CsrSegmentMeta := {m | m ∈ e.current.files ∨ m ∈ e.liveFiles}

/-- The parts of a quiet engine fit together. -/
structure WF (e : Engine) : Prop where
  intact : e.Intact e.knownFiles
  memgraph : ∀ id, (e.heap id).WF
  mem_memgraphs : ∀ id, id ∈ e.current.memgraphs ↔ id = e.active ∨ id ∈ e.running
  active_notMem : e.active ∉ e.running
  memgraph_lt : ∀ id ∈ e.current.memgraphs, id < e.nextMemGraphId
  running_nonempty : ∀ id ∈ e.running, ∃ r, (e.heap id).Stores r
  mem_flushTasks : ∀ id ∈ e.running, id ∈ e.flushTasks
  level_eq : ∀ i, ∀ m ∈ e.current.level i, m.level.toNat = i
  index_eq : e.index = indexOf e.files e.current
  ts_le : ∀ r, r ∈ e.records ∨ r ∈ e.liveRecords → r.ts ≤ e.timestamp
  manifestTs_le : e.manifestTs ≤ e.timestamp

/-- Every record is in one place: in one memgraph, or on disk. -/
structure Separated (e : Engine) : Prop where
  unique : ∀ id ∈ e.current.memgraphs, ∀ id' ∈ e.current.memgraphs, ∀ r,
    (e.heap id).Stores r → (e.heap id').Stores r → id = id'
  notMem_disk : ∀ r ∈ e.unflushed, r ∉ e.diskRecords
  notMem_live : ∀ r ∈ e.unflushed, r ∉ e.liveRecords

theorem mem_records {r : EdgeRecord} :
    r ∈ e.records ↔ r ∈ e.unflushed ∨ r ∈ fileRecords e.files e.current.files := Iff.rfl

/-- The files of a version hold what its `L0` files and its upper files hold. -/
theorem mem_fileRecords_files {files : StoreFiles} {v : Version} {r : EdgeRecord} :
    r ∈ fileRecords files v.files ↔
      r ∈ fileRecords files (v.level 0) ∨ r ∈ fileRecords files v.upperFiles :=
  mem_fileRecords_or fun _ => Version.mem_files_iff

theorem WF.readable (h : e.WF) {m : CsrSegmentMeta} (hm : m ∈ e.current.files) :
    m ∈ e.knownFiles ∧ Readable e.files m :=
  ⟨Or.inl hm, h.intact.readable m (Or.inl hm)⟩

/-! ## Reads -/

/-- The records of a source in the files the index lists are those in the upper files. -/
theorem mem_fileRecords_indexOf {files : StoreFiles} {v : Version} {r : EdgeRecord} :
    r ∈ fileRecords files (indexOf files v r.src) ↔ r ∈ fileRecords files v.upperFiles := by
  constructor
  · rintro ⟨m, hm, hr⟩
    exact ⟨m, (mem_indexOf.mp hm).1, hr⟩
  · rintro ⟨m, hm, hr⟩
    exact ⟨m, mem_indexOf.mpr ⟨hm, r, hr, rfl⟩, hr⟩

/-- **A lookup merges the records of the source**, with the type asked for, and only touches the
metadata cache. -/
theorem getNeighborsTypedInternal_eq (h : e.WF) (src : VertexId) (edgeType : Option EdgeType)
    (s : SnapshotId) :
    ∃ updates cache, getNeighborsTypedInternal src edgeType s e =
        .ok (mergeVisible updates s) { e with metadataCache := cache } ∧
      ({ e with metadataCache := cache } : Engine).WF ∧
      ∀ r, r ∈ updates ↔ (r.src = src ∧ TypeMatches edgeType r) ∧ r ∈ e.records := by
  have hl0 : ∀ m ∈ e.current.level 0, m ∈ e.knownFiles ∧ Readable e.files m := fun m hm =>
    h.readable (Version.mem_files_iff.mpr (Or.inl hm))
  have hindex : ∀ m ∈ e.index src, m ∈ e.knownFiles ∧ Readable e.files m := by
    intro m hm
    rw [h.index_eq, mem_indexOf] at hm
    exact h.readable (Version.mem_files_iff.mpr (Or.inr hm.1))
  obtain ⟨updates, cache, hrun, hgrows, hmem⟩ := getNeighborsTypedInternal_spec
    edgeType h.intact.injOn (fun id _ => h.memgraph id) hl0 hindex h.intact.agrees s
  refine ⟨updates, cache, ?_, { h with intact := h.intact.withCache hgrows }, fun r => ?_⟩
  · rw [getNeighborsTypedInternal, bind_of_ok get_apply, withCache, hrun]
  · rw [hmem, mem_records, mem_fileRecords_files]
    refine and_congr_right fun hr => or_congr_right (or_congr_right ?_)
    rw [h.index_eq, ← hr.1]
    exact mem_fileRecords_indexOf

/-- **A scan merges all records** and changes nothing. -/
theorem scanEdges_eq (h : e.WF) (s : SnapshotId) :
    ∃ updates, scanEdges s e = .ok (mergeVisible updates s) e ∧ ∀ r, r ∈ updates ↔ r ∈ e.records := by
  obtain ⟨updates, hrun, hmem⟩ := LsmGraph.scanEdges_spec e.heap
    (fun m hm => (h.readable hm).2) s
  refine ⟨updates, ?_, hmem⟩
  rw [scanEdges, bind_of_ok get_apply, hrun, ofExcept, pure_apply]

/-! ## Writes -/

/-- Two engines that differ in no data: rotations, waiting and reads. -/
structure SameData (e e' : Engine) : Prop where
  records_eq : e'.records = e.records
  unflushed_eq : e'.unflushed = e.unflushed
  liveRecords_eq : e'.liveRecords = e.liveRecords
  manifestTs_eq : e'.manifestTs = e.manifestTs
  timestamp_eq : e'.timestamp = e.timestamp
  fault_eq : e'.fault = e.fault
  separated : e.Separated → e'.Separated

/-- The state after a rotation whose frozen memgraph is being flushed. -/
def rotated (e : Engine) : Engine :=
  { e with
    heap := Function.update e.heap e.nextMemGraphId
      (MemGraph.new e.config.memgraphCapacityBytes e.config.inlineSegmentCapacity)
    nextMemGraphId := e.nextMemGraphId + 1
    active := e.nextMemGraphId
    current := e.current.rotate e.nextMemGraphId
    running := e.running ++ [e.active]
    flushTasks := e.flushTasks ++ [e.active] }

theorem rotate_enqueueFlush (e : Engine) :
    (do let frozen ← rotate; enqueueFlush frozen) e = .ok () e.rotated := rfl

/-- A rotation adds no record and hides none. -/
theorem unflushed_rotated (h : e.WF) : e.rotated.unflushed = e.unflushed := by
  ext r
  simp only [unflushed, memRecords, rotated, Version.rotate, Set.mem_ofPred_eq,
    List.exists_mem_cons_iff, Function.update_self, MemGraph.not_stores_new, false_or]
  refine exists_congr fun id => and_congr_right fun hid => ?_
  rw [Function.update_of_ne (h.memgraph_lt id hid).ne]

/-- The new memgraph shares nothing with the others. -/
theorem separated_rotated (h : e.WF) (hsep : e.Separated) : e.rotated.Separated := by
  have hold : ∀ id ∈ e.current.memgraphs, e.rotated.heap id = e.heap id := fun id hid =>
    Function.update_of_ne (h.memgraph_lt id hid).ne _ _
  have hnew : ∀ r, ¬ (e.rotated.heap e.nextMemGraphId).Stores r := fun r => by simp [rotated]
  refine ⟨fun id hid id' hid' r hr hr' => ?_, ?_, ?_⟩
  · rcases List.mem_cons.mp hid with rfl | hid
    · exact absurd hr (hnew r)
    rcases List.mem_cons.mp hid' with rfl | hid'
    · exact absurd hr' (hnew r)
    rw [hold id hid] at hr
    rw [hold id' hid'] at hr'
    exact hsep.unique id hid id' hid' r hr hr'
  · rw [unflushed_rotated h]
    exact hsep.notMem_disk
  · rw [unflushed_rotated h]
    exact hsep.notMem_live

/-- **Rotation** of a memgraph that is not empty keeps the invariant and all data. -/
theorem rotated_spec (h : e.WF) (hne : ∃ r, (e.heap e.active).Stores r) :
    e.rotated.WF ∧ SameData e e.rotated := by
  have hunflushed := unflushed_rotated h
  have hrecords : e.rotated.records = e.records :=
    congrArg (· ∪ fileRecords e.files e.current.files) hunflushed
  refine ⟨?_, hrecords, hunflushed, rfl, rfl, rfl, rfl, separated_rotated h⟩
  refine
    { intact := h.intact.congr rfl rfl rfl rfl
      memgraph := fun id => ?_
      mem_memgraphs := fun id => ?_
      active_notMem := fun hmem => ?_
      memgraph_lt := fun id hid => ?_
      running_nonempty := fun id hid => ?_
      mem_flushTasks := fun id hid => ?_
      level_eq := h.level_eq
      index_eq := h.index_eq
      ts_le := by rw [hrecords]; exact h.ts_le
      manifestTs_le := h.manifestTs_le }
  · by_cases hid : id = e.nextMemGraphId
    · subst hid
      simpa [rotated] using MemGraph.wf_new _ _
    · simpa [rotated, Function.update_of_ne hid] using h.memgraph id
  · simp only [rotated, Version.rotate, List.mem_cons, h.mem_memgraphs, List.mem_append]
    tauto
  · rcases List.mem_append.mp hmem with hmem | hmem
    · have hlt := h.memgraph_lt _ ((h.mem_memgraphs _).mpr (Or.inr hmem))
      exact absurd hlt (lt_irrefl _)
    · have hlt := h.memgraph_lt _ ((h.mem_memgraphs _).mpr (Or.inl (List.mem_singleton.mp hmem)))
      exact absurd hlt (lt_irrefl _)
  · rcases List.mem_cons.mp hid with rfl | hid
    · exact Nat.lt_succ_self _
    · exact (h.memgraph_lt id hid).trans (Nat.lt_succ_self _)
  · have hmem : id ∈ e.current.memgraphs := by
      rw [h.mem_memgraphs]
      exact (List.mem_append.mp hid).symm.imp_left List.mem_singleton.mp
    have hheap : e.rotated.heap id = e.heap id := Function.update_of_ne (h.memgraph_lt id hmem).ne _ _
    rw [hheap]
    rcases List.mem_append.mp hid with hid | hid
    · exact h.running_nonempty id hid
    · rwa [List.mem_singleton.mp hid]
  · rcases List.mem_append.mp hid with hid | hid
    · exact List.mem_append_left _ (h.mem_flushTasks id hid)
    · exact List.mem_append_right _ hid

/-- The state after a record was put into the active memgraph, with its timestamp drawn. -/
def appended (e : Engine) (r : EdgeRecord) : Engine :=
  { e with
    timestamp := r.ts
    heap := Function.update e.heap e.active ((e.heap e.active).insert r) }

/-- `r` was written: it is newer than everything there was, and it is not flushed yet. -/
structure Writes (e e' : Engine) (r : EdgeRecord) : Prop where
  mem_records : ∀ x, x ∈ e'.records ↔ x ∈ e.records ∨ x = r
  mem_unflushed : ∀ x, x ∈ e'.unflushed ↔ x ∈ e.unflushed ∨ x = r
  liveRecords_eq : e'.liveRecords = e.liveRecords
  manifestTs_eq : e'.manifestTs = e.manifestTs
  timestamp_lt : e.timestamp < r.ts
  timestamp_eq : e'.timestamp = r.ts
  fault_eq : e'.fault = e.fault
  separated : e.Separated → e'.Separated

theorem Writes.trans_sameData {r : EdgeRecord} {e'' : Engine} (h : Writes e e' r)
    (h' : SameData e' e'') : Writes e e'' r where
  mem_records x := by rw [h'.records_eq, h.mem_records]
  mem_unflushed x := by rw [h'.unflushed_eq, h.mem_unflushed]
  liveRecords_eq := h'.liveRecords_eq.trans h.liveRecords_eq
  manifestTs_eq := h'.manifestTs_eq.trans h.manifestTs_eq
  timestamp_lt := h.timestamp_lt
  timestamp_eq := h'.timestamp_eq.trans h.timestamp_eq
  fault_eq := h'.fault_eq.trans h.fault_eq
  separated := h'.separated ∘ h.separated

/-- The active memgraph has room for a record that is newer than the clock. -/
theorem insert_active_spec (h : e.WF) {r : EdgeRecord} (hts : e.timestamp < r.ts) :
    ((e.heap e.active).insert r).WF ∧
      ∀ x, ((e.heap e.active).insert r).Stores x ↔ (e.heap e.active).Stores x ∨ x = r := by
  refine MemGraph.insert_spec (h.memgraph e.active) fun x hx hkey => ?_
  have hmem : x ∈ e.records :=
    Or.inl ⟨e.active, (h.mem_memgraphs _).mpr (Or.inl rfl), hx⟩
  have hle := h.ts_le x (Or.inl hmem)
  have heq : x.ts = r.ts := congrArg (fun k => (ofLex k).2) hkey
  exact absurd (heq ▸ hle) hts.not_ge

/-- A record that is nowhere yet is in the active memgraph only. -/
theorem Separated.appended (hsep : e.Separated) {r : EdgeRecord}
    (hheap : ∀ id x, ((e.appended r).heap id).Stores x ↔
      (e.heap id).Stores x ∨ id = e.active ∧ x = r)
    (hunflushed : ∀ x, x ∈ (e.appended r).unflushed ↔ x ∈ e.unflushed ∨ x = r)
    (hnew : ∀ x, x ∈ e.records ∨ x ∈ e.liveRecords → x ≠ r) : (e.appended r).Separated := by
  refine ⟨fun id hid id' hid' x hx hx' => ?_, fun x hx hdisk => ?_, fun x hx hlive => ?_⟩
  · rcases (hheap id x).mp hx with hx | ⟨hactive, hxr⟩
    · rcases (hheap id' x).mp hx' with hx' | ⟨-, hxr⟩
      · exact hsep.unique id hid id' hid' x hx hx'
      · exact absurd hxr (hnew x (Or.inl (Or.inl ⟨id, hid, hx⟩)))
    · rcases (hheap id' x).mp hx' with hx' | ⟨hactive', -⟩
      · exact absurd hxr (hnew x (Or.inl (Or.inl ⟨id', hid', hx'⟩)))
      · exact hactive.trans hactive'.symm
  · rcases (hunflushed x).mp hx with hx | rfl
    · exact hsep.notMem_disk x hx hdisk
    · exact hnew x (Or.inl (Or.inr hdisk)) rfl
  · rcases (hunflushed x).mp hx with hx | rfl
    · exact hsep.notMem_live x hx hlive
    · exact hnew x (Or.inr hlive) rfl

/-- **Putting a record into the active memgraph** adds exactly that record. -/
theorem appended_spec (h : e.WF) {r : EdgeRecord} (hts : e.timestamp < r.ts) :
    (e.appended r).WF ∧ Writes e (e.appended r) r := by
  obtain ⟨hwf, hstores⟩ := insert_active_spec h hts
  have hheap : ∀ id x, ((e.appended r).heap id).Stores x ↔
      (e.heap id).Stores x ∨ id = e.active ∧ x = r := by
    intro id x
    by_cases hid : id = e.active
    · subst hid
      simp [appended, hstores]
    · simp [appended, hid]
  have hunflushed : ∀ x, x ∈ (e.appended r).unflushed ↔ x ∈ e.unflushed ∨ x = r := by
    intro x
    constructor
    · rintro ⟨id, hid, hx⟩
      exact ((hheap id x).mp hx).imp (fun hx => ⟨id, hid, hx⟩) And.right
    · rintro (⟨id, hid, hx⟩ | rfl)
      · exact ⟨id, hid, (hheap id x).mpr (Or.inl hx)⟩
      · exact ⟨e.active, (h.mem_memgraphs _).mpr (Or.inl rfl), (hheap _ _).mpr (Or.inr ⟨rfl, rfl⟩)⟩
  have hrecords : ∀ x, x ∈ (e.appended r).records ↔ x ∈ e.records ∨ x = r := by
    intro x
    rw [mem_records, mem_records, hunflushed, or_right_comm]
    rfl
  -- the timestamp was just drawn, so nothing stored is the new record
  have hnew : ∀ x, x ∈ e.records ∨ x ∈ e.liveRecords → x ≠ r := fun x hx heq =>
    absurd (h.ts_le x hx) (heq ▸ hts).not_ge
  have hseparated : e.Separated → (e.appended r).Separated := fun hsep =>
    hsep.appended hheap hunflushed hnew
  refine ⟨?_, hrecords, hunflushed, rfl, rfl, hts, rfl, rfl, hseparated⟩
  refine
    { intact := h.intact.congr rfl rfl rfl rfl
      memgraph := fun id => ?_
      mem_memgraphs := h.mem_memgraphs
      active_notMem := h.active_notMem
      memgraph_lt := h.memgraph_lt
      running_nonempty := fun id hid => ?_
      mem_flushTasks := h.mem_flushTasks
      level_eq := h.level_eq
      index_eq := h.index_eq
      ts_le := fun x hx => ?_
      manifestTs_le := h.manifestTs_le.trans hts.le }
  · by_cases hid : id = e.active
    · subst hid
      simpa [appended] using hwf
    · simpa [appended, Function.update_of_ne hid] using h.memgraph id
  · obtain ⟨x, hx⟩ := h.running_nonempty id hid
    exact ⟨x, (hheap id x).mpr (Or.inl hx)⟩
  · rw [hrecords] at hx
    rcases hx with (hx | rfl) | hx
    · exact (h.ts_le x (Or.inl hx)).trans hts.le
    · exact le_rfl
    · exact (h.ts_le x (Or.inr hx)).trans hts.le

/-- What a write leaves behind: the record appended, and a full memgraph rotated out. -/
theorem writeEdge_apply (r : EdgeRecord) (e : Engine) (hts : e.timestamp = r.ts) :
    writeEdge r e = .ok ()
      (if ((e.appended r).heap e.active).isFull then (e.appended r).rotated else e.appended r) := by
  have happended : e.appended r = { e with
      heap := Function.update e.heap e.active ((e.heap e.active).insert r) } := by
    rw [appended, ← hts]
  rw [writeEdge, bind_of_ok (modify_apply _), bind_of_ok get_apply, ← happended]
  by_cases hfull : ((e.appended r).heap e.active).isFull = true
  · rw [if_pos hfull, if_pos (show ((e.appended r).heap (e.appended r).active).isFull = true from hfull)]
    exact rotate_enqueueFlush _
  · rw [if_neg hfull, if_neg (show ¬ ((e.appended r).heap (e.appended r).active).isFull = true from hfull)]
    rfl

/-- **A write** draws the next timestamp and adds its record, rotating when the memgraph is full. -/
theorem write_spec (h : e.WF) {mk : Timestamp → EdgeRecord} (hmk : ∀ ts, (mk ts).ts = ts)
    (hoverflow : e.timestamp + 1 ≠ 0) :
    ∃ e', (do let ts ← nextTimestamp; writeEdge (mk ts); pure ts) e = .ok (e.timestamp + 1) e' ∧
      e'.WF ∧ Writes e e' (mk (e.timestamp + 1)) := by
  have hts : e.timestamp < (mk (e.timestamp + 1)).ts := by
    rw [hmk]
    exact Timestamp.lt_drawn hoverflow
  obtain ⟨hwf, hwrites⟩ := appended_spec h hts
  have htimestamp : nextTimestamp e =
      .ok (e.timestamp + 1) { e with timestamp := e.timestamp + 1 } := if_neg hoverflow
  have hwrite := writeEdge_apply (mk (e.timestamp + 1)) { e with timestamp := e.timestamp + 1 }
    (hmk _).symm
  refine ⟨_, (bind_of_ok htimestamp).trans ((bind_of_ok hwrite).trans (pure_apply _)), ?_⟩
  split
  · have hstores := (insert_active_spec h hts).2
    have hne : ∃ x, (((e.appended (mk (e.timestamp + 1))).heap e.active).Stores x) :=
      ⟨mk (e.timestamp + 1), by simp [appended, hstores]⟩
    obtain ⟨hwf', hsame⟩ := rotated_spec hwf hne
    exact ⟨hwf', hwrites.trans_sameData hsame⟩
  · exact ⟨hwf, hwrites⟩

/-- `flush_active` up to its wait keeps all data and leaves the active memgraph empty. -/
theorem beginFlushActive_spec (h : e.WF) :
    ∃ e', beginFlushActive e = .ok () e' ∧ e'.WF ∧ SameData e e' ∧
      ∀ r, ¬ (e'.heap e'.active).Stores r := by
  rw [beginFlushActive, bind_of_ok get_apply]
  split
  · rename_i hempty
    exact ⟨e, rfl, h, ⟨rfl, rfl, rfl, rfl, rfl, rfl, id⟩,
      (MemGraph.isEmpty_iff (h.memgraph e.active)).mp hempty⟩
  · rename_i hempty
    rw [MemGraph.isEmpty_iff (h.memgraph e.active), not_forall] at hempty
    obtain ⟨r, hr⟩ := hempty
    obtain ⟨hwf, hsame⟩ := rotated_spec h ⟨r, not_not.mp hr⟩
    exact ⟨_, rotate_enqueueFlush e, hwf, hsame, fun r => by simp [rotated]⟩

end Engine

end LsmGraph
