import LsmGraph.EdgeMap
import LsmGraph.Engine.Maintenance

/-! # An engine and the history of its operations

`Tracks e history` connects a quiet engine with the operations it has carried out: it holds nothing
else, what its version holds covers them all, and each one is in a memgraph or covered by the live
files. Every operation keeps this up, with the history extended by a write and cut down to what was
flushed by a crash. An engine that tracks a history answers reads with the edges that the history
prescribes (`Tracks.mem_visible_iff`). -/

namespace LsmGraph

namespace Engine

variable {e e' : Engine} {history : List EdgeRecord}

/-- The engine holds the operations of the history, or newer ones of the same edges. -/
structure Tracks (e : Engine) (history : List EdgeRecord) : Prop where
  records_sub : ∀ r ∈ e.records, r ∈ history
  live_sub : ∀ r ∈ e.liveRecords, r ∈ history
  ascending : Ascending history
  ts_le : ∀ r ∈ history, r.ts ≤ e.timestamp
  covers : Covers e.records {r | r ∈ history}
  durable : ∀ r ∈ history, r ∈ e.unflushed ∨
    r.ts ≤ e.manifestTs ∧ ∃ r' ∈ e.liveRecords, r'.key = r.key ∧ r.ts ≤ r'.ts

theorem Tracks.coherent (h : Tracks e history) : Coherent e.records :=
  h.ascending.coherent.mono h.records_sub

/-- Operations that change no data keep track. -/
theorem Tracks.sameData (h : Tracks e history) (hsame : SameData e e') : Tracks e' history where
  records_sub := hsame.records_eq ▸ h.records_sub
  live_sub := hsame.liveRecords_eq ▸ h.live_sub
  ascending := h.ascending
  ts_le := hsame.timestamp_eq ▸ h.ts_le
  covers := hsame.records_eq ▸ h.covers
  durable := by
    rw [hsame.unflushed_eq, hsame.manifestTs_eq, hsame.liveRecords_eq]
    exact h.durable

/-- A write extends the history. -/
theorem Tracks.write (h : Tracks e history) {r : EdgeRecord} (hwrites : Writes e e' r) :
    Tracks e' (history ++ [r]) where
  records_sub x hx := by
    rcases (hwrites.mem_records x).mp hx with hx | rfl
    · exact List.mem_append_left _ (h.records_sub x hx)
    · exact List.mem_append_right _ (List.mem_singleton_self x)
  live_sub x hx := List.mem_append_left _ (h.live_sub x (hwrites.liveRecords_eq ▸ hx))
  ascending := by
    refine List.pairwise_append.mpr ⟨h.ascending, List.pairwise_singleton _ _, fun a ha b hb => ?_⟩
    rw [List.mem_singleton.mp hb]
    exact (h.ts_le a ha).trans_lt hwrites.timestamp_lt
  ts_le x hx := by
    rw [hwrites.timestamp_eq]
    rcases List.mem_append.mp hx with hx | hx
    · exact (h.ts_le x hx).trans hwrites.timestamp_lt.le
    · rw [List.mem_singleton.mp hx]
  covers x hx := by
    rcases List.mem_append.mp hx with hx | hx
    · obtain ⟨x', hx', hrel⟩ := h.covers x hx
      exact ⟨x', (hwrites.mem_records x').mpr (Or.inl hx'), hrel⟩
    · exact ⟨x, (hwrites.mem_records x).mpr (Or.inr (List.mem_singleton.mp hx)), rfl, le_rfl⟩
  durable x hx := by
    rw [hwrites.liveRecords_eq, hwrites.manifestTs_eq, hwrites.mem_unflushed]
    rcases List.mem_append.mp hx with hx | hx
    · exact (h.durable x hx).imp_left Or.inl
    · exact Or.inl (Or.inr (List.mem_singleton.mp hx))

/-- A flush keeps track. -/
theorem Tracks.flush (h : Tracks e history) {m : MemGraphId} (hmem : ∀ r, (e.heap m).Stores r →
    r ∈ e.unflushed) (hflush : Flushes e e' m) : Tracks e' history where
  records_sub := hflush.records_eq ▸ h.records_sub
  live_sub r hr := by
    rcases (hflush.mem_liveRecords r).mp hr with hr | hr
    · exact h.live_sub r hr
    · exact h.records_sub r (Or.inl (hmem r hr))
  ascending := h.ascending
  ts_le := hflush.timestamp_eq ▸ h.ts_le
  covers := hflush.records_eq ▸ h.covers
  durable r hr := by
    rcases h.durable r hr with hr' | ⟨hts, r', hr', hrel⟩
    · rcases hflush.unflushed_or r hr' with hr' | hr'
      · exact Or.inl hr'
      · exact Or.inr ⟨hflush.ts_le_manifestTs r hr', r, (hflush.mem_liveRecords r).mpr (Or.inr hr'),
          rfl, le_rfl⟩
    · exact Or.inr ⟨hts.trans hflush.manifestTs_le, r',
        (hflush.mem_liveRecords r').mpr (Or.inl hr'), hrel⟩

/-- A compaction keeps track, whether or not it completes. -/
theorem Tracks.compact (h : Tracks e history) {inputs : Set EdgeRecord}
    (hcompacts : Compacts inputs e e') : Tracks e' history where
  records_sub r hr := h.records_sub r (hcompacts.records_sub hr)
  live_sub r hr := (hcompacts.liveRecords_sub hr).elim (h.live_sub r) fun hr => h.records_sub r (Or.inr hr)
  ascending := h.ascending
  ts_le := hcompacts.timestamp_eq ▸ h.ts_le
  covers := hcompacts.records_covers.trans h.covers
  durable r hr := by
    refine (h.durable r hr).imp (fun hr' => hcompacts.unflushed_eq.ge hr') ?_
    rintro ⟨hts, r', hr', hkey, hle⟩
    obtain ⟨r'', hr'', hkey', hle'⟩ := hcompacts.liveRecords_covers r' hr'
    exact ⟨hts.trans hcompacts.manifestTs_le, r'', hr'', hkey'.trans hkey, hle.trans hle'⟩

/-! ## What survives a crash -/

/-- The records in memgraphs, as a list. -/
def unflushedEdges (e : Engine) : List EdgeRecord :=
  e.current.memgraphs.flatMap fun id => (e.heap id).allEdgesSorted

theorem mem_unflushedEdges {r : EdgeRecord} : r ∈ e.unflushedEdges ↔ r ∈ e.unflushed := by
  rw [unflushedEdges, List.mem_flatMap]
  simp only [MemGraph.mem_allEdgesSorted]
  rfl

/-- The operations of a history that have been flushed. -/
def flushedHistory (e : Engine) (history : List EdgeRecord) : List EdgeRecord :=
  history.filter fun r => r ∉ e.unflushedEdges

/-- **Reopening** tracks what was flushed, and its clock is not behind any live file. -/
theorem Tracks.reopen (h : Tracks e history) (hwf : e.WF) (hsep : e.Separated) (config : LsmGraphConfig) :
    ∃ e', openDir config e.files e.manifest = .ok () e' ∧ e'.WF ∧
      Tracks e' (e.flushedHistory history) ∧ (∀ r, r ∉ e'.unflushed) ∧ e'.running = [] ∧
      e'.fault = none := by
  obtain ⟨e', hrun, hwf', hrecords, hliveRecords, hunflushed, hmanifestTs, htimestamp, hrunning,
    hfault⟩ := openDir_spec config e.files e.manifest fun m hm => hwf.intact.readable m (Or.inr hm)
  have hmem : ∀ r, r ∈ e.flushedHistory history ↔ r ∈ history ∧ r ∉ e.unflushed := by
    intro r
    rw [flushedHistory, List.mem_filter, decide_eq_true_iff, mem_unflushedEdges]
  have hdurable : ∀ r ∈ e.flushedHistory history,
      r.ts ≤ e.manifestTs ∧ ∃ r' ∈ e.liveRecords, r'.key = r.key ∧ r.ts ≤ r'.ts := by
    intro r hr
    obtain ⟨hr, hflushed⟩ := (hmem r).mp hr
    exact (h.durable r hr).resolve_left hflushed
  have hsub : ∀ r ∈ e.liveRecords, r ∈ e.flushedHistory history := fun r hr =>
    (hmem r).mpr ⟨h.live_sub r hr, fun hmem => hsep.notMem_live r hmem hr⟩
  refine ⟨e', hrun, hwf', ?_, hunflushed, hrunning, hfault⟩
  refine
    { records_sub := fun r hr => hsub r (hrecords.le hr)
      live_sub := fun r hr => hsub r (hliveRecords.le hr)
      ascending := h.ascending.filter _
      ts_le := fun r hr => htimestamp ▸ (hdurable r hr).1
      covers := fun r hr => ?_
      durable := fun r hr => ?_ }
  · obtain ⟨-, r', hr', hrel⟩ := hdurable r hr
    exact ⟨r', hrecords.ge hr', hrel⟩
  · obtain ⟨hts, r', hr', hrel⟩ := hdurable r hr
    exact Or.inr ⟨hmanifestTs ▸ hts, r', hliveRecords.ge hr', hrel⟩

/-! ## Reads -/

/-- **A read as of a snapshot that is not behind the clock sees the edge map** of the history. -/
theorem Tracks.mem_visible_iff (h : Tracks e history) {updates : List EdgeRecord}
    {K : EdgeKey → Prop} {s : SnapshotId} (hmem : ∀ r, r ∈ updates ↔ K r.key ∧ r ∈ e.records)
    (hs : e.timestamp ≤ s) (r : EdgeRecord) :
    r ∈ mergeVisible updates s ↔
      K r.key ∧ r.marker = .insert ∧ edgeMap history r.key = some r.ts := by
  have hset : asOf {x | x ∈ updates} s = {x | x ∈ e.records ∧ K x.key} := by
    ext x
    constructor
    · rintro ⟨hx, -⟩
      exact ((hmem x).mp hx).symm
    · rintro ⟨hx, hK⟩
      exact ⟨(hmem x).mpr ⟨hK, hx⟩, (h.ts_le x (h.records_sub x hx)).trans hs⟩
  have hcoh : Coherent {x | x ∈ updates} := h.coherent.mono fun x hx => ((hmem x).mp hx).2
  have hsep : Newest {x | x ∈ e.records ∧ K x.key} r ↔ Newest e.records r ∧ K r.key :=
    Versioned.newest_sep_iff
  have hnewest : Newest e.records r ↔ Newest {x | x ∈ history} r :=
    Versioned.newest_iff_of_covers h.ascending.coherent h.records_sub h.covers r
  rw [mem_mergeVisible hcoh, hset, hsep, hnewest, and_right_comm, newest_insert_iff h.ascending,
    and_comm]

end Engine

end LsmGraph
