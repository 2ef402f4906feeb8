import LsmGraph.Csr.Format
import LsmGraph.Library.KeyedSort

/-! # The manifest

`csr/manifest.rs`: an append-only log of file creations and deletions. `Manifest.load` replays it
into the live files, the next free file id and the largest timestamp ever recorded. Whatever the log
holds, live files are ascending in their ids, older than the next id, and no newer than that
timestamp (`wf_replay`); a new id makes its file live and leaves the others alone
(`mem_liveFiles_createFile`), and a deletion removes the file of its id
(`mem_liveFiles_deleteFile`). -/

namespace LsmGraph

open KeyedSort

inductive ManifestRecord
  | createFile (m : CsrSegmentMeta)
  | deleteFile (fileId : FileId)
  deriving DecidableEq, Repr

/-- What `load` returns. -/
structure ManifestState where
  liveFiles : List CsrSegmentMeta
  nextFileId : FileId
  maxTs : Timestamp
  deriving DecidableEq, Repr

namespace Manifest

/-- The variables of the replay loop; `live` is a tree map keyed by the file id. -/
structure Replay where
  live : List CsrSegmentMeta
  maxFileId : FileId
  maxTs : Timestamp

/-- One turn of the replay loop. -/
def Replay.apply (s : Replay) : ManifestRecord → Replay
  | .createFile m =>
      { live := insertByKey CsrSegmentMeta.fileId m s.live
        maxFileId := max s.maxFileId m.fileId
        maxTs := max s.maxTs m.maxTs }
  | .deleteFile fileId => { s with live := s.live.filter fun m => m.fileId ≠ fileId }

def replay (records : List ManifestRecord) : Replay :=
  records.foldl Replay.apply { live := [], maxFileId := 0, maxTs := 0 }

/-- Replay the log. A missing file is an empty log. -/
def load (records : List ManifestRecord) : ManifestState :=
  let s := replay records
  { liveFiles := s.live, nextFileId := s.maxFileId + 1, maxTs := s.maxTs }

/-- Append one record. -/
def append (records : List ManifestRecord) (record : ManifestRecord) : List ManifestRecord :=
  records ++ [record]

/-! ## What a replay maintains -/

/-- Live files are ascending in their ids, and the maxima cover them. -/
structure Replay.WF (s : Replay) : Prop where
  ascending : s.live.Pairwise fun a b => a.fileId < b.fileId
  fileId_le : ∀ m ∈ s.live, m.fileId ≤ s.maxFileId
  maxTs_le : ∀ m ∈ s.live, m.maxTs ≤ s.maxTs

/-- One record keeps the replay well formed. -/
theorem Replay.WF.apply {s : Replay} (h : s.WF) (record : ManifestRecord) :
    (s.apply record).WF := by
  cases record with
  | createFile m =>
      refine ⟨pairwise_insertByKey h.ascending, fun r hr => ?_, fun r hr => ?_⟩
      · rcases mem_of_mem_insertByKey hr with rfl | hr
        · exact le_max_right _ _
        · exact (h.fileId_le r hr).trans (le_max_left _ _)
      · rcases mem_of_mem_insertByKey hr with rfl | hr
        · exact le_max_right _ _
        · exact (h.maxTs_le r hr).trans (le_max_left _ _)
  | deleteFile fileId =>
      exact ⟨h.ascending.filter _, fun r hr => h.fileId_le r (List.mem_of_mem_filter hr),
        fun r hr => h.maxTs_le r (List.mem_of_mem_filter hr)⟩

/-- **Whatever the log holds, its replay is well formed.** -/
theorem wf_replay (records : List ManifestRecord) : (replay records).WF := by
  rw [replay]
  refine List.foldlRecOn records Replay.apply ⟨List.Pairwise.nil, nofun, nofun⟩ ?_
  exact fun s hs record _ => hs.apply record

@[simp] theorem load_nil : load [] = { liveFiles := [], nextFileId := 1, maxTs := 0 } := rfl

/-- Appending one record replays one record more. -/
theorem replay_append (records : List ManifestRecord) (record : ManifestRecord) :
    replay (append records record) = (replay records).apply record := by
  rw [append, replay, List.foldl_append, List.foldl_cons, List.foldl_nil, replay]

/-- Ids of live files are smaller than the next one. -/
theorem fileId_lt_nextFileId {records : List ManifestRecord} {m : CsrSegmentMeta}
    (hm : m ∈ (load records).liveFiles) : m.fileId < (load records).nextFileId :=
  Nat.lt_succ_of_le ((wf_replay records).fileId_le m hm)

/-- No live file is newer than the recorded maximum. -/
theorem maxTs_le_maxTs {records : List ManifestRecord} {m : CsrSegmentMeta}
    (hm : m ∈ (load records).liveFiles) : m.maxTs ≤ (load records).maxTs :=
  (wf_replay records).maxTs_le m hm

/-- Creating a file whose id is new to the log makes exactly that file live. -/
theorem mem_liveFiles_createFile {records : List ManifestRecord} {m r : CsrSegmentMeta}
    (hnew : (load records).nextFileId ≤ m.fileId) :
    r ∈ (load (append records (.createFile m))).liveFiles ↔
      r ∈ (load records).liveFiles ∨ r = m := by
  simp only [load, replay_append]
  refine mem_insertByKey fun x hx => ?_
  exact ((fileId_lt_nextFileId hx).trans_le hnew).ne

/-- Creating a file makes exactly that file live if no other live file has its id. -/
theorem mem_liveFiles_createFile_of_unique {records : List ManifestRecord} {m r : CsrSegmentMeta}
    (hunique : ∀ x ∈ (load records).liveFiles, x.fileId = m.fileId → x = m) :
    r ∈ (load (append records (.createFile m))).liveFiles ↔
      r ∈ (load records).liveFiles ∨ r = m := by
  simp only [load, replay_append]
  constructor
  · exact fun hr => (mem_of_mem_insertByKey hr).symm
  · rintro (hr | rfl)
    · by_cases heq : r.fileId = m.fileId
      · rw [hunique r hr heq]
        exact mem_insertByKey_self m _
      · exact mem_insertByKey_of_ne hr heq
    · exact mem_insertByKey_self r _

/-- Deleting a file takes away the file of that id. -/
theorem mem_liveFiles_deleteFile {records : List ManifestRecord} {fileId : FileId}
    {r : CsrSegmentMeta} :
    r ∈ (load (append records (.deleteFile fileId))).liveFiles ↔
      r ∈ (load records).liveFiles ∧ r.fileId ≠ fileId := by
  simp [load, replay_append, Replay.apply]

@[simp] theorem nextFileId_createFile (records : List ManifestRecord) (m : CsrSegmentMeta) :
    (load (append records (.createFile m))).nextFileId =
      max (load records).nextFileId (m.fileId + 1) := by
  simp [load, replay_append, Replay.apply, Nat.succ_max_succ]

@[simp] theorem nextFileId_deleteFile (records : List ManifestRecord) (fileId : FileId) :
    (load (append records (.deleteFile fileId))).nextFileId = (load records).nextFileId := by
  simp [load, replay_append, Replay.apply]

@[simp] theorem maxTs_createFile (records : List ManifestRecord) (m : CsrSegmentMeta) :
    (load (append records (.createFile m))).maxTs = max (load records).maxTs m.maxTs := by
  simp [load, replay_append, Replay.apply]

@[simp] theorem maxTs_deleteFile (records : List ManifestRecord) (fileId : FileId) :
    (load (append records (.deleteFile fileId))).maxTs = (load records).maxTs := by
  simp [load, replay_append, Replay.apply]

end Manifest

end LsmGraph
