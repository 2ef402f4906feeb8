import LsmGraph.Engine

/-! # Files, manifest and cache of an engine

`Intact e K` says that the files `K` are what the directory, the manifest and the metadata cache of
`e` take them for: readable, with distinct ids that were handed out already, the live ones among
them, and decoded correctly wherever they are cached. The module states what the I/O primitives do to
this (`createFile_spec`, `createFiles_spec`, `deleteFiles_spec`, `rebuildIndex_spec`), for a step that
succeeds and for one that an I/O fault ends. -/

namespace LsmGraph

open KeyedSort ErrorState CsrReader

/-! ## Files that keep their contents -/

section Congr

variable {files files' : StoreFiles} {m : CsrSegmentMeta} {ms : List CsrSegmentMeta}

theorem readMetadataFromDisk_congr (h : files' m.level m.fileId = files m.level m.fileId) :
    readMetadataFromDisk files' m = readMetadataFromDisk files m := by
  rw [readMetadataFromDisk, readMetadataFromDisk, h]

theorem segmentRecords_congr (h : files' m.level m.fileId = files m.level m.fileId) :
    segmentRecords files' m = segmentRecords files m := by
  rw [segmentRecords, segmentRecords, readAllEdges, readAllEdges, readMetadataFromDisk_congr h, h]

theorem fileRecords_congr (h : ∀ m ∈ ms, files' m.level m.fileId = files m.level m.fileId) :
    fileRecords files' ms = fileRecords files ms := by
  ext r
  constructor
  · rintro ⟨m, hm, hr⟩
    exact ⟨m, hm, by rwa [segmentRecords_congr (h m hm)] at hr⟩
  · rintro ⟨m, hm, hr⟩
    exact ⟨m, hm, by rwa [segmentRecords_congr (h m hm)]⟩

theorem indexOf_congr {v : Version}
    (h : ∀ m ∈ v.upperFiles, files' m.level m.fileId = files m.level m.fileId) :
    indexOf files' v = indexOf files v := by
  funext src
  refine List.filter_congr fun m hm => ?_
  rw [segmentRecords_congr (h m hm)]

theorem Readable.congr (hm : Readable files m)
    (h : files' m.level m.fileId = files m.level m.fileId) : Readable files' m := by
  obtain ⟨edges, hstored⟩ := hm
  exact ⟨edges, hstored.congr h⟩

/-- A readable file is not empty. -/
theorem Readable.exists_mem (hm : Readable files m) : ∃ r, r ∈ segmentRecords files m := by
  obtain ⟨edges, hstored⟩ := hm
  obtain ⟨r, hr⟩ := List.exists_mem_of_ne_nil edges hstored.nonempty
  exact ⟨r, by rwa [segmentRecords_of_stored hstored, mem_sortByKey]⟩

theorem Readable.ts_le_maxTs (hm : Readable files m) {r : EdgeRecord}
    (hr : r ∈ segmentRecords files m) : r.ts ≤ m.maxTs := by
  obtain ⟨edges, hstored⟩ := hm
  rw [segmentRecords_of_stored hstored, mem_sortByKey] at hr
  exact hstored.ts_le_maxTs hr

theorem Readable.src_mem_range (hm : Readable files m) {r : EdgeRecord}
    (hr : r ∈ segmentRecords files m) : m.minSrc ≤ r.src ∧ r.src ≤ m.maxSrc := by
  obtain ⟨edges, hstored⟩ := hm
  rw [segmentRecords_of_stored hstored, mem_sortByKey] at hr
  exact hstored.src_mem_range hr

theorem Readable.exists_ts_eq_maxTs (hm : Readable files m) :
    ∃ r ∈ segmentRecords files m, r.ts = m.maxTs := by
  obtain ⟨edges, hstored⟩ := hm
  obtain ⟨r, hr, hts⟩ := hstored.exists_ts_eq_maxTs
  exact ⟨r, by rwa [segmentRecords_of_stored hstored, mem_sortByKey], hts⟩

/-- Files written from `segments` read back as their records. -/
theorem perm_of_forall₂ {segments : List (List EdgeRecord)}
    (h : List.Forall₂ (Stored files) ms segments) :
    (ms.flatMap (segmentRecords files)).Perm segments.flatten := by
  induction h with
  | nil => exact .refl _
  | cons hm _ ih =>
      rw [List.flatMap_cons, List.flatten_cons, segmentRecords_of_stored hm]
      exact (perm_sortByKey _ _).append ih

/-- What is stored for a list of files written from `segments`. -/
theorem fileRecords_of_forall₂ {segments : List (List EdgeRecord)}
    (h : List.Forall₂ (Stored files) ms segments) :
    fileRecords files ms = {r | r ∈ segments.flatten} := by
  ext r
  rw [← mem_flatMap_segmentRecords]
  exact (perm_of_forall₂ h).mem_iff

end Congr

namespace Engine

variable {e e' e'' : Engine} {K K' : Set CsrSegmentMeta} {ms ms' : List CsrSegmentMeta}

/-- The files a replay of the manifest yields. -/
def liveFiles (e : Engine) : List CsrSegmentMeta := (Manifest.load e.manifest).liveFiles

/-- The largest timestamp the manifest has recorded. -/
def manifestTs (e : Engine) : Timestamp := (Manifest.load e.manifest).maxTs

/-- The files `K`, which include the live ones, are what the engine takes them for. -/
structure Intact (e : Engine) (K : Set CsrSegmentMeta) : Prop where
  readable : ∀ m ∈ K, Readable e.files m
  fileId_lt : ∀ m ∈ K, m.fileId < e.nextFileId
  injOn : Set.InjOn CsrSegmentMeta.fileId K
  live_mem : ∀ m ∈ e.liveFiles, m ∈ K
  manifest_le : (Manifest.load e.manifest).nextFileId ≤ e.nextFileId
  cached_lt : ∀ id metadata, e.metadataCache.map.lookup id = some metadata → id < e.nextFileId
  agrees : Agrees e.files K e.metadataCache

/-- Fewer files are intact, as long as the live ones are among them. -/
theorem Intact.mono (h : e.Intact K) (hsub : K' ⊆ K) (hlive : ∀ m ∈ e.liveFiles, m ∈ K') :
    e.Intact K' where
  readable m hm := h.readable m (hsub hm)
  fileId_lt m hm := h.fileId_lt m (hsub hm)
  injOn := h.injOn.mono hsub
  live_mem := hlive
  manifest_le := h.manifest_le
  cached_lt := h.cached_lt
  agrees id metadata hlookup m hm := h.agrees id metadata hlookup m (hsub hm)

/-- Only directory, manifest, id counter and cache matter. -/
theorem Intact.congr (h : e.Intact K) (hfiles : e'.files = e.files)
    (hmanifest : e'.manifest = e.manifest) (hnext : e'.nextFileId = e.nextFileId)
    (hcache : e'.metadataCache = e.metadataCache) : e'.Intact K where
  readable m hm := hfiles ▸ h.readable m hm
  fileId_lt m hm := hnext ▸ h.fileId_lt m hm
  injOn := h.injOn
  live_mem m hm := h.live_mem m (by rwa [liveFiles, hmanifest] at hm)
  manifest_le := by rw [hmanifest, hnext]; exact h.manifest_le
  cached_lt := by rw [hcache, hnext]; exact h.cached_lt
  agrees := by rw [hfiles, hcache]; exact h.agrees

/-- A read through the cache keeps the files intact. -/
theorem Intact.withCache (h : e.Intact K) {cache : CsrMetadataCache}
    (hgrows : GrowsFrom e.files K e.metadataCache cache) :
    ({ e with metadataCache := cache } : Engine).Intact K where
  readable := h.readable
  fileId_lt := h.fileId_lt
  injOn := h.injOn
  live_mem := h.live_mem
  manifest_le := h.manifest_le
  cached_lt id metadata hlookup := by
    rcases hgrows id metadata hlookup with hlookup | ⟨m, hm, rfl, -⟩
    · exact h.cached_lt id metadata hlookup
    · exact h.fileId_lt m hm
  agrees := hgrows.agrees h.agrees h.injOn

/-! ## Creating and deleting files -/

/-- From `e` to `e'` exactly the files `ms` were created and committed, under new ids; nothing else
of the engine has changed. Uncommitted files may have been left behind under new ids. -/
structure Creates (e e' : Engine) (ms : List CsrSegmentMeta) : Prop where
  frame : ∃ files manifest nextFileId fault, e' = { e with
    files := files
    manifest := manifest
    nextFileId := nextFileId
    fault := fault }
  files_eq : ∀ level id, id < e.nextFileId → e'.files level id = e.files level id
  nextFileId_le : e.nextFileId ≤ e'.nextFileId
  manifest_le : (Manifest.load e.manifest).nextFileId ≤ e.nextFileId →
    (Manifest.load e'.manifest).nextFileId ≤ e'.nextFileId
  mem_live : (Manifest.load e.manifest).nextFileId ≤ e.nextFileId →
    ∀ m, m ∈ e'.liveFiles ↔ m ∈ e.liveFiles ∨ m ∈ ms
  fresh : ∀ m ∈ ms, e.nextFileId ≤ m.fileId ∧ m.fileId < e'.nextFileId
  ascending : ms.Pairwise fun a b => a.fileId < b.fileId
  readable : ∀ m ∈ ms, Readable e'.files m
  manifestTs_le : e.manifestTs ≤ e'.manifestTs
  le_manifestTs : ∀ t, e.manifestTs ≤ t → (∀ m ∈ ms, m.maxTs ≤ t) → e'.manifestTs ≤ t

namespace Creates

theorem refl (e : Engine) (next : FileId) (hnext : e.nextFileId ≤ next) (files : StoreFiles)
    (hfiles : ∀ level id, id < e.nextFileId → files level id = e.files level id)
    (fault : Option IoFault) :
    Creates e { e with files := files, nextFileId := next, fault := fault } [] where
  frame := ⟨_, _, _, _, rfl⟩
  files_eq := hfiles
  nextFileId_le := hnext
  manifest_le h := h.trans hnext
  mem_live _ m := by simp [liveFiles]
  fresh := nofun
  ascending := List.Pairwise.nil
  readable := nofun
  manifestTs_le := le_rfl
  le_manifestTs _ h _ := h

theorem trans (h : Creates e e' ms) (h' : Creates e' e'' ms') : Creates e e'' (ms ++ ms') where
  frame := by
    obtain ⟨_, _, _, _, rfl⟩ := h.frame
    obtain ⟨_, _, _, _, rfl⟩ := h'.frame
    exact ⟨_, _, _, _, rfl⟩
  files_eq level id hid :=
    (h'.files_eq level id (hid.trans_le h.nextFileId_le)).trans (h.files_eq level id hid)
  nextFileId_le := h.nextFileId_le.trans h'.nextFileId_le
  manifest_le hle := h'.manifest_le (h.manifest_le hle)
  mem_live hle m := by
    rw [h'.mem_live (h.manifest_le hle), h.mem_live hle, List.mem_append, or_assoc]
  fresh m hm := by
    rcases List.mem_append.mp hm with hm | hm
    · exact ⟨(h.fresh m hm).1, (h.fresh m hm).2.trans_le h'.nextFileId_le⟩
    · exact ⟨h.nextFileId_le.trans (h'.fresh m hm).1, (h'.fresh m hm).2⟩
  ascending := by
    refine List.pairwise_append.mpr ⟨h.ascending, h'.ascending, fun a ha b hb => ?_⟩
    exact (h.fresh a ha).2.trans_le (h'.fresh b hb).1
  readable m hm := by
    rcases List.mem_append.mp hm with hm | hm
    · exact (h.readable m hm).congr (h'.files_eq _ _ (h.fresh m hm).2)
    · exact h'.readable m hm
  manifestTs_le := h.manifestTs_le.trans h'.manifestTs_le
  le_manifestTs t hle hms := by
    refine h'.le_manifestTs t (h.le_manifestTs t hle fun m hm => ?_) fun m hm => ?_
    · exact hms m (List.mem_append_left _ hm)
    · exact hms m (List.mem_append_right _ hm)

theorem metadataCache_eq (h : Creates e e' ms) : e'.metadataCache = e.metadataCache := by
  obtain ⟨_, _, _, _, rfl⟩ := h.frame
  rfl

/-- A created file stays as it was written. -/
theorem stored (h' : Creates e' e'' ms') {m : CsrSegmentMeta} {edges : List EdgeRecord}
    (hm : Stored e'.files m edges) (hid : m.fileId < e'.nextFileId) : Stored e''.files m edges :=
  hm.congr (h'.files_eq _ _ hid)

/-- **Creating files keeps the others intact** and adds the new ones. -/
theorem intact (h : Creates e e' ms) (hK : e.Intact K) : e'.Intact (K ∪ {m | m ∈ ms}) where
  readable := by
    rintro m (hm | hm)
    · exact (hK.readable m hm).congr (h.files_eq _ _ (hK.fileId_lt m hm))
    · exact h.readable m hm
  fileId_lt := by
    rintro m (hm | hm)
    · exact (hK.fileId_lt m hm).trans_le h.nextFileId_le
    · exact (h.fresh m hm).2
  injOn := by
    rintro a (ha | ha) b (hb | hb) heq
    · exact hK.injOn ha hb heq
    · exact absurd heq ((hK.fileId_lt a ha).trans_le (h.fresh b hb).1).ne
    · exact absurd heq ((hK.fileId_lt b hb).trans_le (h.fresh a ha).1).ne'
    · exact injOn_of_ascending h.ascending ha hb heq
  live_mem m hm := ((h.mem_live hK.manifest_le m).mp hm).imp_left (hK.live_mem m)
  manifest_le := h.manifest_le hK.manifest_le
  cached_lt id metadata hlookup := by
    rw [h.metadataCache_eq] at hlookup
    exact (hK.cached_lt id metadata hlookup).trans_le h.nextFileId_le
  agrees := by
    rw [h.metadataCache_eq]
    rintro id metadata hlookup m (hm | hm) hid
    · rw [readMetadataFromDisk_congr (h.files_eq _ _ (hK.fileId_lt m hm))]
      exact hK.agrees id metadata hlookup m hm hid
    · have hlt := hK.cached_lt id metadata hlookup
      exact absurd hid (hlt.trans_le (h.fresh m hm).1).ne'

/-- A new file is under a number no file had. -/
theorem putFile_of_lt (level : LevelId) (edges : List EdgeRecord) (l : LevelId) {id : FileId}
    (hid : id < e.nextFileId) :
    putFile e.files level e.nextFileId (CsrWriter.writeSegment level e.nextFileId edges).1 l id =
      e.files l id :=
  if_neg fun h => hid.ne h.2

theorem stored_putFile (level : LevelId) {edges : List EdgeRecord} (hne : edges ≠ []) :
    Stored (putFile e.files level e.nextFileId
      (CsrWriter.writeSegment level e.nextFileId edges).1)
        (CsrWriter.writeSegment level e.nextFileId edges).2 edges :=
  stored_writeSegment hne (if_pos ⟨rfl, rfl⟩)

/-- One committed file. -/
theorem single {level : LevelId} {edges : List EdgeRecord} (hne : edges ≠ []) (fault : Option IoFault) :
    Creates e
      { e with
        files := putFile e.files level e.nextFileId
          (CsrWriter.writeSegment level e.nextFileId edges).1
        manifest := Manifest.append e.manifest
          (.createFile (CsrWriter.writeSegment level e.nextFileId edges).2)
        nextFileId := e.nextFileId + 1
        fault := fault }
      [(CsrWriter.writeSegment level e.nextFileId edges).2] where
  frame := ⟨_, _, _, _, rfl⟩
  files_eq l id hid := putFile_of_lt level edges l hid
  nextFileId_le := Nat.le_succ _
  manifest_le hle := by
    rw [Manifest.nextFileId_createFile]
    exact max_le (hle.trans (Nat.le_succ _)) le_rfl
  mem_live hle m := by
    rw [liveFiles, Manifest.mem_liveFiles_createFile hle, List.mem_singleton, liveFiles]
  fresh m hm := by
    rw [List.mem_singleton] at hm
    subst hm
    exact ⟨le_rfl, Nat.lt_succ_self _⟩
  ascending := List.pairwise_singleton _ _
  readable m hm := by
    rw [List.mem_singleton] at hm
    subst hm
    exact ⟨edges, stored_putFile level hne⟩
  manifestTs_le := by
    rw [manifestTs, manifestTs, Manifest.maxTs_createFile]
    exact le_max_left _ _
  le_manifestTs t hle hms := by
    rw [manifestTs, Manifest.maxTs_createFile]
    exact max_le hle (hms _ (List.mem_singleton_self _))

end Creates

/-- From `e` to `e'` the ids `ids` were deleted in the manifest; nothing else has changed. -/
structure Deletes (e e' : Engine) (ids : List FileId) : Prop where
  frame : ∃ manifest fault, e' = { e with manifest := manifest, fault := fault }
  nextFileId_eq : (Manifest.load e'.manifest).nextFileId = (Manifest.load e.manifest).nextFileId
  manifestTs_eq : e'.manifestTs = e.manifestTs
  mem_live : ∀ m, m ∈ e'.liveFiles ↔ m ∈ e.liveFiles ∧ m.fileId ∉ ids

namespace Deletes

variable {ids ids' : List FileId}

theorem refl (e : Engine) (fault : Option IoFault) : Deletes e { e with fault := fault } [] where
  frame := ⟨_, _, rfl⟩
  nextFileId_eq := rfl
  manifestTs_eq := rfl
  mem_live m := by simp [liveFiles]

theorem trans (h : Deletes e e' ids) (h' : Deletes e' e'' ids') : Deletes e e'' (ids ++ ids') where
  frame := by
    obtain ⟨_, _, rfl⟩ := h.frame
    obtain ⟨_, _, rfl⟩ := h'.frame
    exact ⟨_, _, rfl⟩
  nextFileId_eq := h'.nextFileId_eq.trans h.nextFileId_eq
  manifestTs_eq := h'.manifestTs_eq.trans h.manifestTs_eq
  mem_live m := by rw [h'.mem_live, h.mem_live, List.mem_append, not_or, and_assoc]

/-- One appended deletion. -/
theorem single (e : Engine) (id : FileId) (fault : Option IoFault) :
    Deletes e { e with manifest := Manifest.append e.manifest (.deleteFile id), fault := fault }
      [id] where
  frame := ⟨_, _, rfl⟩
  nextFileId_eq := Manifest.nextFileId_deleteFile _ _
  manifestTs_eq := Manifest.maxTs_deleteFile _ _
  mem_live m := by
    rw [liveFiles, Manifest.mem_liveFiles_deleteFile, List.mem_singleton, liveFiles]

/-- **Deleting files in the manifest keeps the files intact.** -/
theorem intact (h : Deletes e e' ids) (hK : e.Intact K) : e'.Intact K := by
  have hlive : ∀ m ∈ e'.liveFiles, m ∈ K := fun m hm => hK.live_mem m ((h.mem_live m).mp hm).1
  have hle : (Manifest.load e'.manifest).nextFileId ≤ e.nextFileId :=
    h.nextFileId_eq ▸ hK.manifest_le
  obtain ⟨_, _, rfl⟩ := h.frame
  exact { hK with live_mem := hlive, manifest_le := hle }

end Deletes

/-! ## The primitives -/

/-- An I/O operation takes effect, or fails with or without its effect. -/
theorem io_cases (effect : Engine → Engine) (e : Engine) :
    (∃ fault, io effect e = .ok () (effect { e with fault := fault }) ∧
        (e.fault = none → fault = none)) ∨
      e.fault ≠ none ∧ (io effect e = .error .io (effect e) ∨ io effect e = .error .io e) := by
  rw [io]
  cases hfault : e.fault with
  | none => exact Or.inl ⟨none, by simp [← hfault], fun _ => rfl⟩
  | some fault =>
      cases hafter : fault.after with
      | succ n => exact Or.inl ⟨some { fault with after := n }, by simp only [hafter], nofun⟩
      | zero =>
          refine Or.inr ⟨nofun, ?_⟩
          simp only [hafter]
          cases fault.durable with
          | true => exact Or.inl rfl
          | false => exact Or.inr rfl

/-- A segment write takes effect, or fails with or without its effect. -/
theorem writeSegment_cases (level : LevelId) (fileId : FileId) (edges : List EdgeRecord)
    (e : Engine) :
    (∃ fault, writeSegment level fileId edges e = .ok (CsrWriter.writeSegment level fileId edges).2
        (withFile level fileId (CsrWriter.writeSegment level fileId edges).1
          { e with fault := fault }) ∧ (e.fault = none → fault = none)) ∨
      e.fault ≠ none ∧ (writeSegment level fileId edges e =
          .error .io (withFile level fileId (CsrWriter.writeSegment level fileId edges).1 e) ∨
        writeSegment level fileId edges e = .error .io e) := by
  rw [writeSegment]
  rcases io_cases (withFile level fileId (CsrWriter.writeSegment level fileId edges).1) e with
    ⟨fault, hio, hnone⟩ | ⟨hfault, hio | hio⟩
  · exact Or.inl ⟨fault, bind_of_ok hio, hnone⟩
  · exact Or.inr ⟨hfault, Or.inl (bind_of_error hio)⟩
  · exact Or.inr ⟨hfault, Or.inr (bind_of_error hio)⟩

/-- **Creating one file** commits it, or fails having committed it or not. -/
theorem createFile_spec (level : LevelId) {edges : List EdgeRecord} (hne : edges ≠ []) (e : Engine) :
    (∃ m e', createFile level edges e = .ok m e' ∧ Creates e e' [m] ∧ Stored e'.files m edges ∧
        m.level = level ∧ (e.fault = none → e'.fault = none)) ∨
      ∃ ms e', createFile level edges e = .error .io e' ∧ e.fault ≠ none ∧ Creates e e' ms ∧
        ∀ m ∈ ms, Stored e'.files m edges ∧ m.level = level := by
  have hput := Creates.putFile_of_lt (e := e) level edges
  have hstored := Creates.stored_putFile (e := e) level hne
  rw [createFile, bind_of_ok (show allocFileId e = _ from rfl)]
  rcases writeSegment_cases level e.nextFileId edges { e with nextFileId := e.nextFileId + 1 } with
    ⟨fault, hwrite, hnone⟩ | ⟨hfault, hwrite | hwrite⟩
  · -- the segment is written; the commit follows
    rw [bind_of_ok hwrite, appendManifest]
    rcases io_cases
      (withRecord (.createFile (CsrWriter.writeSegment level e.nextFileId edges).2)) _ with
      ⟨fault', hio, hnone'⟩ | ⟨hfault, hio | hio⟩
    · exact Or.inl ⟨_, _, bind_of_ok hio, Creates.single hne fault', hstored, rfl,
        fun h => hnone' (hnone h)⟩
    · refine Or.inr ⟨_, _, bind_of_error hio, fun h => hfault (hnone h),
        Creates.single hne fault, fun m hm => ?_⟩
      rw [List.mem_singleton] at hm
      subst hm
      exact ⟨hstored, rfl⟩
    · exact Or.inr ⟨_, _, bind_of_error hio, fun h => hfault (hnone h),
        Creates.refl e _ (Nat.le_succ _) _ hput fault, nofun⟩
  · exact Or.inr ⟨_, _, bind_of_error hwrite, hfault,
      Creates.refl e _ (Nat.le_succ _) _ hput e.fault, nofun⟩
  · exact Or.inr ⟨_, _, bind_of_error hwrite, hfault,
      Creates.refl e _ (Nat.le_succ _) e.files (fun _ _ _ => rfl) e.fault, nofun⟩

/-- **Creating files one by one** commits them all, or fails having committed some of them. -/
theorem createFiles_spec (level : LevelId) {segments : List (List EdgeRecord)}
    (hne : [] ∉ segments) (e : Engine) :
    (∃ ms e', createFiles level segments e = .ok ms e' ∧ Creates e e' ms ∧
        List.Forall₂ (Stored e'.files) ms segments ∧ (∀ m ∈ ms, m.level = level) ∧
        (e.fault = none → e'.fault = none)) ∨
      ∃ ms e', createFiles level segments e = .error .io e' ∧ e.fault ≠ none ∧ Creates e e' ms ∧
        ∀ m ∈ ms, (∃ edges ∈ segments, Stored e'.files m edges) ∧ m.level = level := by
  induction segments generalizing e with
  | nil =>
      exact Or.inl ⟨[], e, rfl, Creates.refl e _ le_rfl e.files (fun _ _ _ => rfl) e.fault,
        List.Forall₂.nil, nofun, id⟩
  | cons edges segments ih =>
      obtain ⟨hedges, hsegments⟩ := not_or.mp (List.mem_cons.not.mp hne)
      rcases createFile_spec level (Ne.symm hedges) e with
        ⟨m, e₁, hrun, hcreates, hstored, hlevel, hfault⟩ | ⟨ms, e₁, hrun, hfault, hcreates, hms⟩
      · have hlt := (hcreates.fresh m (List.mem_singleton_self m)).2
        rcases ih hsegments e₁ with
          ⟨ms, e', hrun', hcreates', hall, hlevels, hfault'⟩ |
          ⟨ms, e', hrun', hfault', hcreates', hms⟩
        · refine Or.inl ⟨m :: ms, e', ?_, hcreates.trans hcreates', ?_, ?_, fun h => hfault' (hfault h)⟩
          · rw [createFiles, bind_of_ok hrun, bind_of_ok hrun', pure_apply]
          · exact List.Forall₂.cons (hcreates'.stored hstored hlt) hall
          · exact List.forall_mem_cons.mpr ⟨hlevel, hlevels⟩
        · refine Or.inr ⟨m :: ms, e', ?_, fun h => hfault' (hfault h), hcreates.trans hcreates',
            List.forall_mem_cons.mpr ⟨⟨⟨edges, List.mem_cons_self, ?_⟩, hlevel⟩, fun m' hm' => ?_⟩⟩
          · rw [createFiles, bind_of_ok hrun, bind_of_error hrun']
          · exact hcreates'.stored hstored hlt
          · obtain ⟨⟨edges', hedges', hstored'⟩, hlevel'⟩ := hms m' hm'
            exact ⟨⟨edges', List.mem_cons_of_mem _ hedges', hstored'⟩, hlevel'⟩
      · refine Or.inr ⟨ms, e₁, ?_, hfault, hcreates, fun m hm => ?_⟩
        · rw [createFiles, bind_of_error hrun]
        · exact ⟨⟨edges, List.mem_cons_self, (hms m hm).1⟩, (hms m hm).2⟩

/-- **Deleting files** deletes them all, or fails having deleted some of them. -/
theorem deleteFiles_spec (ms : List CsrSegmentMeta) (e : Engine) :
    (∃ e', deleteFiles ms e = .ok () e' ∧ Deletes e e' (ms.map CsrSegmentMeta.fileId) ∧
        (e.fault = none → e'.fault = none)) ∨
      ∃ ids e', deleteFiles ms e = .error .io e' ∧ e.fault ≠ none ∧ Deletes e e' ids ∧
        ids ⊆ ms.map CsrSegmentMeta.fileId := by
  induction ms generalizing e with
  | nil => exact Or.inl ⟨e, rfl, Deletes.refl e e.fault, id⟩
  | cons m ms ih =>
      rw [deleteFiles, appendManifest]
      rcases io_cases (withRecord (.deleteFile m.fileId)) e with
        ⟨fault, hio, hnone⟩ | ⟨hfault, hio | hio⟩
      · rw [bind_of_ok hio]
        rcases ih (withRecord (.deleteFile m.fileId) { e with fault := fault }) with
          ⟨e', hrun, hdeletes, hfault⟩ | ⟨ids, e', hrun, hfault, hdeletes, hids⟩
        · exact Or.inl ⟨e', hrun, (Deletes.single e m.fileId fault).trans hdeletes,
            fun h => hfault (hnone h)⟩
        · exact Or.inr ⟨_, e', hrun, fun h => hfault (hnone h),
            (Deletes.single e m.fileId fault).trans hdeletes, List.cons_subset_cons _ hids⟩
      · exact Or.inr ⟨_, _, bind_of_error hio, hfault, Deletes.single e m.fileId e.fault,
          List.cons_subset_cons _ (List.nil_subset _)⟩
      · exact Or.inr ⟨_, _, bind_of_error hio, hfault, Deletes.refl e e.fault, List.nil_subset _⟩

/-- What a rebuild does when the offset tables can be read. -/
theorem rebuildIndex_of_build {entries : MultiLevelIndex} {cache : CsrMetadataCache}
    (hrun : buildIndex e.files e.current e.metadataCache = .ok entries cache) :
    rebuildIndex e = .ok () { e with index := entries, metadataCache := cache } := by
  have hcache : Engine.withCache (fun files => buildIndex files e.current) e =
      .ok entries { e with metadataCache := cache } := by
    rw [Engine.withCache, hrun]
  rw [rebuildIndex, bind_of_ok get_apply, bind_of_ok hcache, modify_apply]

/-- **Rebuilding the index** installs the index of the current version. -/
theorem rebuildIndex_spec (hK : e.Intact K) (hfiles : ∀ m ∈ e.current.files, m ∈ K) :
    ∃ cache, rebuildIndex e = .ok ()
        { e with index := indexOf e.files e.current, metadataCache := cache } ∧
      ({ e with index := indexOf e.files e.current, metadataCache := cache } : Engine).Intact K := by
  have hread : ∀ m ∈ e.current.upperFiles, m ∈ K ∧ Readable e.files m := by
    intro m hm
    have hmK := hfiles m (Version.mem_files_iff.mpr (Or.inr hm))
    exact ⟨hmK, hK.readable m hmK⟩
  obtain ⟨cache, hrun, hgrows⟩ := buildIndex_spec hK.injOn hread hK.agrees
  exact ⟨cache, rebuildIndex_of_build hrun, (hK.withCache hgrows).congr rfl rfl rfl rfl⟩

end Engine

end LsmGraph
