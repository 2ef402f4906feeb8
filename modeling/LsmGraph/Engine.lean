import LsmGraph.Csr.Manifest
import LsmGraph.Read
import LsmGraph.Segments

/-! # The engine

`Engine` of `graph.rs` as a state, and its operations as computations that may fail and keep the
state they reached. Memgraphs live in a heap and are shared by id; a spawned flush is an id in
`running` until the task has ended, and its handle is in `flushTasks` until somebody waits for it.
File writes and manifest appends go through `io`, which a test of crash behaviour can make fail at
any point. An operation that has to wait for a flush that has not ended yet is `blocked`. Metrics are
left out. -/

namespace LsmGraph

/-- When I/O starts to fail: after this many successful operations. The failing operation has its
effect or not. -/
structure IoFault where
  after : Nat
  durable : Bool
  deriving DecidableEq, Repr

/-- The engine, with the directory it works on. -/
structure Engine where
  config : LsmGraphConfig
  files : StoreFiles
  manifest : List ManifestRecord
  heap : MemGraphId → MemGraph
  nextMemGraphId : MemGraphId
  current : Version
  active : MemGraphId
  nextFileId : FileId
  flushTasks : List MemGraphId
  running : List MemGraphId
  timestamp : Timestamp
  index : MultiLevelIndex
  metadataCache : CsrMetadataCache
  fault : Option IoFault

/-- A computation of the engine. -/
abbrev EngineM := EStateM EngineError Engine

namespace Engine

/-! ## Primitives -/

/-- One I/O operation with its effect. -/
def io (effect : Engine → Engine) : EngineM Unit := fun e =>
  match e.fault with
  | none => .ok () (effect e)
  | some fault =>
      match fault.after with
      | n + 1 => .ok () (effect { e with fault := some { fault with after := n } })
      | 0 => .error .io (if fault.durable then effect e else e)

/-- Run a computation of the reader on the metadata cache. -/
def withCache {α : Type} (x : StoreFiles → CsrM α) : EngineM α := fun e =>
  match x e.files e.metadataCache with
  | .ok a cache => .ok a { e with metadataCache := cache }
  | .error err cache => .error err { e with metadataCache := cache }

/-- Turn a result into a computation. -/
def ofExcept {α : Type} : Except EngineError α → EngineM α
  | .ok a => pure a
  | .error err => throw err

/-- `timestamp.fetch_add(1) + 1`. -/
def nextTimestamp : EngineM Timestamp := fun e =>
  let e' := { e with timestamp := e.timestamp + 1 }
  if e.timestamp + 1 = 0 then .error .overflow e' else .ok (e.timestamp + 1) e'

def allocFileId : EngineM FileId := fun e =>
  .ok e.nextFileId { e with nextFileId := e.nextFileId + 1 }

/-- Put a file into the directory. -/
def putFile (files : StoreFiles) (level : LevelId) (fileId : FileId) (segment : CsrSegment) :
    StoreFiles := fun l id => if l = level ∧ id = fileId then some segment else files l id

/-- The effect of a finished segment write. -/
def withFile (level : LevelId) (fileId : FileId) (segment : CsrSegment) (e : Engine) : Engine :=
  { e with files := putFile e.files level fileId segment }

/-- The effect of a finished manifest append. -/
def withRecord (record : ManifestRecord) (e : Engine) : Engine :=
  { e with manifest := Manifest.append e.manifest record }

def writeSegment (level : LevelId) (fileId : FileId) (edges : List EdgeRecord) :
    EngineM CsrSegmentMeta := do
  let written := CsrWriter.writeSegment level fileId edges
  io (withFile level fileId written.1)
  pure written.2

def appendManifest (record : ManifestRecord) : EngineM Unit := io (withRecord record)

def publish (v : Version) : EngineM Unit := modify fun e => { e with current := v }

def rebuildIndex : EngineM Unit := do
  let guard := (← get).current
  let entries ← withCache fun files => buildIndex files guard
  modify fun e => { e with index := entries }

/-! ## Opening -/

/-- A directory without files. -/
def emptyDir : StoreFiles := fun _ _ => none

/-- The state `open_inner` builds before it rebuilds the index. -/
def initial (config : LsmGraphConfig) (files : StoreFiles) (manifest : List ManifestRecord) :
    Engine where
  config := config
  files := files
  manifest := manifest
  heap := fun _ => MemGraph.new config.memgraphCapacityBytes config.inlineSegmentCapacity
  nextMemGraphId := 1
  current :=
    { id := 1
      memgraphs := [0]
      levels := splitLevels (Manifest.load manifest).liveFiles config.maxLevels }
  active := 0
  nextFileId := (Manifest.load manifest).nextFileId
  flushTasks := []
  running := []
  timestamp := (Manifest.load manifest).maxTs
  index := fun _ => []
  metadataCache := CsrMetadataCache.new 4096
  fault := none

/-- `Engine::open` on a directory. A fresh store is an empty directory. -/
def openDir (config : LsmGraphConfig) (files : StoreFiles) (manifest : List ManifestRecord) :
    EStateM.Result EngineError Engine Unit :=
  rebuildIndex (initial config files manifest)

/-! ## Writing -/

def currentSnapshot : EngineM SnapshotId := do
  pure (← get).timestamp

/-- Replace the active memgraph by a new one and publish, under the state lock; the old one is
returned. -/
def rotate : EngineM MemGraphId := fun e =>
  let newActive := e.nextMemGraphId
  .ok e.active
    { e with
      heap := Function.update e.heap newActive
        (MemGraph.new e.config.memgraphCapacityBytes e.config.inlineSegmentCapacity)
      nextMemGraphId := newActive + 1
      active := newActive
      current := e.current.rotate newActive }

/-- Spawn the flush of a frozen memgraph and register its handle. -/
def enqueueFlush (memgraph : MemGraphId) : EngineM Unit :=
  modify fun e =>
    { e with running := e.running ++ [memgraph], flushTasks := e.flushTasks ++ [memgraph] }

def writeEdge (edge : EdgeRecord) : EngineM Unit := do
  modify fun e => { e with heap := Function.update e.heap e.active ((e.heap e.active).insert edge) }
  let e ← get
  if (e.heap e.active).isFull then
    let frozen ← rotate
    enqueueFlush frozen

def insertEdge (src dst : VertexId) (edgeType : EdgeType) : EngineM SnapshotId := do
  let ts ← nextTimestamp
  writeEdge (EdgeRecord.insert src dst edgeType ts)
  pure ts

def deleteEdge (src dst : VertexId) (edgeType : EdgeType) : EngineM SnapshotId := do
  let ts ← nextTimestamp
  writeEdge (EdgeRecord.delete src dst edgeType ts)
  pure ts

/-! ## Flushing -/

/-- Write one segment under a new id and commit it. -/
def createFile (level : LevelId) (segmentEdges : List EdgeRecord) : EngineM CsrSegmentMeta := do
  let fileId ← allocFileId
  let m ← writeSegment level fileId segmentEdges
  appendManifest (.createFile m)
  pure m

/-- Write the segments one by one, committing each with its own manifest record. -/
def createFiles (level : LevelId) : List (List EdgeRecord) → EngineM (List CsrSegmentMeta)
  | [] => pure []
  | segmentEdges :: segments => do
      let m ← createFile level segmentEdges
      let metas ← createFiles level segments
      pure (m :: metas)

/-- Append a deletion for each file. -/
def deleteFiles : List CsrSegmentMeta → EngineM Unit
  | [] => pure ()
  | m :: ms => do
      appendManifest (.deleteFile m.fileId)
      deleteFiles ms

def flushMemgraph (memgraph : MemGraphId) : EngineM Unit := do
  let e ← get
  let edges := (e.heap memgraph).allEdgesSorted
  if edges = [] then pure ()
  else
    let metas ← createFiles L0 (buildL0FlushSegments e.config edges)
    let old := (← get).current
    publish (old.afterFlush memgraph metas)
    rebuildIndex

/-- The spawned task: flush, then end. -/
def runFlushTask (memgraph : MemGraphId) : EngineM Unit := do
  flushMemgraph memgraph
  modify fun e => { e with running := e.running.filter fun id => id ≠ memgraph }

/-- Pop and await the handles, last one first. -/
def waitForFlushes : EngineM Unit := fun e =>
  if e.flushTasks.any (· ∈ e.running) then .error .blocked e
  else .ok () { e with flushTasks := [] }

/-! ## Compaction -/

/-- The `L0` files a partial compaction reads. -/
def selectL0 (v : Version) (target : L0CompactionTarget) : List CsrSegmentMeta :=
  (v.level L0.toNat).filter fun m => targetMatchesMeta m target

/-- The `L1` files a partial compaction reads, given the `L0` files it reads. -/
def selectL1 (v : Version) (target : L0CompactionTarget) (selectedL0 : List CsrSegmentMeta) :
    List CsrSegmentMeta :=
  let minSrc := (selectedL0.map CsrSegmentMeta.minSrc).min?.getD 0
  let maxSrc := (selectedL0.map CsrSegmentMeta.maxSrc).max?.getD 0
  (v.level L1.toNat).filter fun m =>
    partitionOverlapsTarget m target.srcLabel target.edgeType &&
      rangesOverlap m.minSrc m.maxSrc minSrc maxSrc

/-- What both compactions do once their inputs are chosen: merge them as of the current snapshot,
write the pieces `cut` makes of the result, delete the inputs in the manifest, and publish what
`next` makes of the version that is current by then. -/
def compactFiles (inputs : List CsrSegmentMeta)
    (cut : List EdgeRecord → List (List EdgeRecord))
    (next : Version → List CsrSegmentMeta → Version) : EngineM (List CsrSegmentMeta) := do
  let updates ← ofExcept (readAllFiles (← get).files inputs)
  let snapshot ← currentSnapshot
  let compacted := mergeLatestRecords updates snapshot true
  let outputs ← createFiles L1 (cut compacted)
  deleteFiles inputs
  let old := (← get).current
  publish (next old outputs)
  rebuildIndex
  pure outputs

def compactL0ToL1Inner (force : Bool) : EngineM (Option CsrSegmentMeta) := do
  waitForFlushes
  let e ← get
  let l0Files := e.current.level L0.toNat
  if l0Files = [] then pure none
  else if !force ∧ l0Files.length < e.config.l0FileThreshold then pure none
  else
    let l1Files := e.current.level L1.toNat
    let outputs ← compactFiles (l0Files ++ l1Files) (fun compacted => [compacted])
      fun old outputs => old.afterFullCompaction outputs
    pure outputs.head?

def compactL0TargetToL1 (target : L0CompactionTarget) : EngineM (List CsrSegmentMeta) := do
  waitForFlushes
  let e ← get
  let selectedL0 := selectL0 e.current target
  if selectedL0 = [] then pure []
  else
    let selectedL1 := selectL1 e.current target selectedL0
    compactFiles (selectedL0 ++ selectedL1)
      (fun compacted => splitCompactionSegments compacted e.config.segmentTargetBytes)
      fun old outputs => old.afterTargetCompaction selectedL0 selectedL1 outputs

def compactL0ToL1 : EngineM (Option CsrSegmentMeta) := compactL0ToL1Inner true

def compactL0PartitionToL1 (srcLabel : Int32) (edgeType : Option EdgeType) :
    EngineM (List CsrSegmentMeta) :=
  compactL0TargetToL1 { srcLabel, edgeType, minSrc := none, maxSrc := none }

def compactL0RangeToL1 (srcLabel : Int32) (edgeType : Option EdgeType) (minSrc maxSrc : VertexId) :
    EngineM (List CsrSegmentMeta) :=
  compactL0TargetToL1 { srcLabel, edgeType, minSrc := some minSrc, maxSrc := some maxSrc }

/-- The first part of `flush_active`: rotate, unless there is nothing to flush. -/
def beginFlushActive : EngineM Unit := do
  let e ← get
  if (e.heap e.active).isEmpty then pure ()
  else
    let frozen ← rotate
    enqueueFlush frozen

/-- The second part of `flush_active`: wait, then compact if configured. -/
def finishFlushActive : EngineM Unit := do
  waitForFlushes
  if (← get).config.autoCompaction then
    let _ ← compactL0ToL1Inner false

def flushActive : EngineM Unit := do
  beginFlushActive
  finishFlushActive

/-! ## Reading -/

def getNeighborsTypedInternal (src : VertexId) (edgeType : Option EdgeType) (snapshot : SnapshotId) :
    EngineM (List EdgeRecord) := do
  let e ← get
  withCache fun files =>
    LsmGraph.getNeighborsTypedInternal files e.heap e.current e.index src edgeType snapshot

def getNeighbors (src : VertexId) (snapshot : SnapshotId) : EngineM (List EdgeRecord) :=
  getNeighborsTypedInternal src none snapshot

def getNeighborsTyped (src : VertexId) (edgeType : EdgeType) (snapshot : SnapshotId) :
    EngineM (List EdgeRecord) :=
  getNeighborsTypedInternal src (some edgeType) snapshot

def scanEdges (snapshot : SnapshotId) : EngineM (List EdgeRecord) := do
  let e ← get
  ofExcept (LsmGraph.scanEdges e.files e.heap e.current snapshot)

end Engine

end LsmGraph
