import LsmGraph.Session

/-! # The engine under concurrency

Any number of calls and of background flushes work on one engine. `Sys.step` lets one of them take
one atomic step: a section under the state lock, one access to the timestamp, to the version, to the
index or to the list of flush handles, one segment write or one manifest append. A flush and the two
compactions are `Job`s that share their stages from the first segment write to the installation of the
index; what a job remembers between two steps is in its stage. A rotation, which swaps the active
memgraph and publishes under the state lock, is one step. `inserted` and `recovered` are kept for the
statements only: the records that have been put into memgraphs, with those the store was opened with,
and the latter alone. -/

namespace LsmGraph

open ErrorState Transition

/-! ## Jobs -/

/-- What a job merges or writes. -/
inductive JobKind
  | flush (memgraph : MemGraphId)
  | full (l0Files l1Files : List CsrSegmentMeta)
  | target (selectedL0 selectedL1 : List CsrSegmentMeta)

/-- Where a job stands. -/
inductive Stage
  /-- About to read what it writes. -/
  | load
  /-- About to take an id for the next segment. -/
  | create (segments : List (List EdgeRecord)) (outputs : List CsrSegmentMeta)
  | write (fileId : FileId) (segmentEdges : List EdgeRecord) (segments : List (List EdgeRecord))
      (outputs : List CsrSegmentMeta)
  | commit (m : CsrSegmentMeta) (segments : List (List EdgeRecord)) (outputs : List CsrSegmentMeta)
  /-- About to append the deletion of input number `n`. -/
  | delete (n : Nat) (outputs : List CsrSegmentMeta)
  | pin (outputs : List CsrSegmentMeta)
  | publish (old : Version) (outputs : List CsrSegmentMeta)
  /-- About to pin the version of the new index. -/
  | rebuild
  | install (v : Version)

structure Job where
  kind : JobKind
  stage : Stage

namespace JobKind

def level : JobKind → LevelId
  | .flush _ => L0
  | .full _ _ => L1
  | .target _ _ => L1

/-- The files the job reads, and deletes in the manifest in this order. -/
def inputs : JobKind → List CsrSegmentMeta
  | .flush _ => []
  | .full l0Files l1Files => l0Files ++ l1Files
  | .target selectedL0 selectedL1 => selectedL0 ++ selectedL1

/-- What the job makes of the version it pinned. -/
def next (kind : JobKind) (old : Version) (outputs : List CsrSegmentMeta) : Version :=
  match kind with
  | .flush memgraph => old.afterFlush memgraph outputs
  | .full _ _ => old.afterFullCompaction outputs
  | .target selectedL0 selectedL1 => old.afterTargetCompaction selectedL0 selectedL1 outputs

/-- The segments the job writes; none if there is nothing to flush. -/
def segments : JobKind → EngineM (List (List EdgeRecord))
  | .flush memgraph => do
      let e ← get
      let edges := (e.heap memgraph).allEdgesSorted
      if edges = [] then pure [] else pure (buildL0FlushSegments e.config edges)
  | .full l0Files l1Files => do
      let updates ← Engine.ofExcept (readAllFiles (← get).files (l0Files ++ l1Files))
      let snapshot ← Engine.currentSnapshot
      pure [mergeLatestRecords updates snapshot true]
  | .target selectedL0 selectedL1 => do
      let updates ← Engine.ofExcept (readAllFiles (← get).files (selectedL0 ++ selectedL1))
      let snapshot ← Engine.currentSnapshot
      pure (splitCompactionSegments (mergeLatestRecords updates snapshot true)
        (← get).config.segmentTargetBytes)

end JobKind

/-- One step of a job: its next stage, or `none` when it has ended. -/
def Job.step (j : Job) : EngineM (Option Stage) :=
  match j.stage with
  | .load => do
      let segments ← j.kind.segments
      if segments = [] then pure none else pure (some (.create segments []))
  | .create [] outputs => pure (some (.delete 0 outputs))
  | .create (segmentEdges :: segments) outputs => do
      let fileId ← Engine.allocFileId
      pure (some (.write fileId segmentEdges segments outputs))
  | .write fileId segmentEdges segments outputs => do
      let m ← Engine.writeSegment j.kind.level fileId segmentEdges
      pure (some (.commit m segments outputs))
  | .commit m segments outputs => do
      Engine.appendManifest (.createFile m)
      pure (some (.create segments (outputs ++ [m])))
  | .delete n outputs =>
      match j.kind.inputs[n]? with
      | some m => do
          Engine.appendManifest (.deleteFile m.fileId)
          pure (some (.delete (n + 1) outputs))
      | none => pure (some (.pin outputs))
  | .pin outputs => do
      pure (some (.publish (← get).current outputs))
  | .publish old outputs => do
      Engine.publish (j.kind.next old outputs)
      pure (some .rebuild)
  | .rebuild => do
      pure (some (.install (← get).current))
  | .install v => do
      let entries ← Engine.withCache fun files => buildIndex files v
      modify fun e => { e with index := entries }
      pure none

/-! ## Calls -/

abbrev CallId := Nat

/-- A compaction that was asked for. -/
inductive Request
  | full (force : Bool)
  | target (target : L0CompactionTarget)

/-- Where a call of the engine stands. In `flush_active`, `began` are the records inserted before the
call; a call that waits in order to compact carries its `request`. -/
inductive Call
  | idle
  /-- In `write_edge`, with the timestamp drawn. -/
  | writing (edge : EdgeRecord)
  /-- In `enqueue_flush` of a write. -/
  | spawningWrite (memgraph : MemGraphId) (src : VertexId)
  | pushingWrite (memgraph : MemGraphId) (src : VertexId)
  /-- In `enqueue_flush` of a `flush_active`. -/
  | spawningFlush (memgraph : MemGraphId) (began : List EdgeRecord)
  | pushingFlush (memgraph : MemGraphId) (began : List EdgeRecord)
  /-- In the loop of `wait_for_flushes`. -/
  | waiting (request : Option Request) (began : Option (List EdgeRecord))
  | awaiting (memgraph : MemGraphId) (request : Option Request) (began : Option (List EdgeRecord))
  /-- About to pin the version whose files it merges. -/
  | selecting (request : Request) (began : Option (List EdgeRecord))
  | compacting (began : Option (List EdgeRecord))
  /-- `flush_active` is returning `Ok`. -/
  | flushed (began : List EdgeRecord)
  /-- In a lookup, with the version pinned and the index not yet read. -/
  | looking (v : Version) (src : VertexId) (edgeType : Option EdgeType) (snapshot : SnapshotId)

/-- Who is working: a spawned flush, or a call. -/
inductive Party
  | task (memgraph : MemGraphId)
  | call (c : CallId)
  deriving DecidableEq, Repr

/-- One of the `RwLock`s of `VertexLockTable`. -/
structure VertexLock where
  readers : List CallId
  writer : Option CallId
  deriving DecidableEq, Repr

/-- The engine with everyone who works on it. `ended` says whether a flush task has ended with `Ok`. -/
structure Sys where
  engine : Engine
  jobs : Party → Option Job
  ended : MemGraphId → Option Bool
  calls : CallId → Call
  locks : UInt64 → VertexLock
  inserted : List EdgeRecord
  recovered : List EdgeRecord

/-- The steps, each taken by a call `c` unless it is that of a job. `fault` says that an I/O operation
fails, with its effect or without. -/
inductive Action
  | insertEdge (c : CallId) (src dst : VertexId) (edgeType : EdgeType)
  | deleteEdge (c : CallId) (src dst : VertexId) (edgeType : EdgeType)
  | write (c : CallId)
  | spawn (c : CallId)
  | push (c : CallId)
  | flushActive (c : CallId)
  | waitForFlushes (c : CallId)
  | compact (c : CallId) (request : Request)
  | pop (c : CallId)
  | await (c : CallId)
  | select (c : CallId)
  | job (p : Party) (fault : Option Bool)
  | getNeighbors (c : CallId) (src : VertexId) (edgeType : Option EdgeType) (snapshot : SnapshotId)
  | read (c : CallId)
  | done (c : CallId)

namespace Engine

/-- The section of `write_edge` under the state lock; a memgraph that was rotated out is returned. -/
def insertActive (edge : EdgeRecord) : EngineM (Option MemGraphId) := do
  modify fun e => { e with heap := Function.update e.heap e.active ((e.heap e.active).insert edge) }
  let e ← get
  if (e.heap e.active).isFull then
    let frozen ← rotate
    pure (some frozen)
  else pure none

/-- The section of `flush_active` under the state lock. -/
def rotateActive : EngineM (Option MemGraphId) := do
  let e ← get
  if (e.heap e.active).isEmpty then pure none
  else
    let frozen ← rotate
    pure (some frozen)

end Engine

namespace Sys

/-- The lock of a source: `VertexLockTable::new(1 << 16)`. -/
def shard (src : VertexId) : UInt64 := src &&& 65535

/-- `e` is an engine that was just opened on a directory some client has worked with. -/
def Opened (e : Engine) : Prop :=
  ∃ config x₀ x config', Session.create config = some x₀ ∧
    Reaches Session.step (fun _ _ => True) x₀ x ∧
    Engine.openDir config' x.engine.files x.engine.manifest = .ok () e

/-- Nobody works on the engine yet. -/
def start (e : Engine) : Sys where
  engine := e
  jobs := fun _ => none
  ended := fun _ => none
  calls := fun _ => .idle
  locks := fun _ => { readers := [], writer := none }
  inserted := e.current.files.flatMap (segmentRecords e.files)
  recovered := e.current.files.flatMap (segmentRecords e.files)

/-- Let a call go on to `call`. -/
def setCall (x : Sys) (c : CallId) (call : Call) : Sys :=
  { x with calls := Function.update x.calls c call }

def setJob (x : Sys) (p : Party) (j : Option Job) : Sys :=
  { x with jobs := Function.update x.jobs p j }

def setLock (x : Sys) (src : VertexId) (lock : VertexLock) : Sys :=
  { x with locks := Function.update x.locks (shard src) lock }

/-- Draw a timestamp. -/
def draw (x : Sys) (c : CallId) (mk : Timestamp → EdgeRecord) : Option Sys :=
  match x.calls c with
  | .idle =>
      match Engine.nextTimestamp x.engine with
      | .ok ts e => some ({ x with engine := e }.setCall c (.writing (mk ts)))
      | .error _ _ => none
  | _ => none

/-- What a call that is through with waiting and compacting returns to. -/
def returned : Option (List EdgeRecord) → Call
  | some began => .flushed began
  | none => .idle

/-- The files a request selects, if there is anything to do. -/
def selection (e : Engine) : Request → Option JobKind
  | .full force =>
      let l0Files := e.current.level L0.toNat
      if l0Files = [] then none
      else if !force ∧ l0Files.length < e.config.l0FileThreshold then none
      else some (.full l0Files (e.current.level L1.toNat))
  | .target target =>
      let selectedL0 := Engine.selectL0 e.current target
      if selectedL0 = [] then none
      else some (.target selectedL0 (Engine.selectL1 e.current target selectedL0))

/-- A job has ended, with `Ok` or not. -/
def finish (x : Sys) (p : Party) (ok : Bool) : Sys :=
  let x := x.setJob p none
  match p with
  | .task memgraph => { x with ended := Function.update x.ended memgraph (some ok) }
  | .call c =>
      match x.calls c with
      | .compacting began => x.setCall c (if ok then returned began else .idle)
      | _ => x

/-- One step, if it is possible. -/
def step (x : Sys) : Action → Option Sys
  | .insertEdge c src dst edgeType => x.draw c (EdgeRecord.insert src dst edgeType)
  | .deleteEdge c src dst edgeType => x.draw c (EdgeRecord.delete src dst edgeType)
  | .write c =>
      match x.calls c with
      | .writing edge =>
          let lock := x.locks (shard edge.src)
          -- the write lock of the source is taken first
          if lock.readers = [] ∧ lock.writer = none then
            match Engine.insertActive edge x.engine with
            | .ok none e =>
                some ({ x with engine := e, inserted := x.inserted ++ [edge] }.setCall c .idle)
            | .ok (some frozen) e =>
                some (({ x with engine := e, inserted := x.inserted ++ [edge] }.setLock edge.src
                  { lock with writer := some c }).setCall c (.spawningWrite frozen edge.src))
            | .error _ _ => none
          else none
      | _ => none
  | .spawn c =>
      match x.calls c with
      | .spawningWrite memgraph src =>
          some ((x.setJob (.task memgraph) (some { kind := .flush memgraph, stage := .load })).setCall
            c (.pushingWrite memgraph src))
      | .spawningFlush memgraph began =>
          some ((x.setJob (.task memgraph) (some { kind := .flush memgraph, stage := .load })).setCall
            c (.pushingFlush memgraph began))
      | _ => none
  | .push c =>
      match x.calls c with
      | .pushingWrite memgraph src =>
          let e := { x.engine with flushTasks := x.engine.flushTasks ++ [memgraph] }
          some (({ x with engine := e }.setLock src
            { x.locks (shard src) with writer := none }).setCall c .idle)
      | .pushingFlush memgraph began =>
          let e := { x.engine with flushTasks := x.engine.flushTasks ++ [memgraph] }
          some ({ x with engine := e }.setCall c (.waiting none (some began)))
      | _ => none
  | .flushActive c =>
      match x.calls c with
      | .idle =>
          match Engine.rotateActive x.engine with
          | .ok none e => some ({ x with engine := e }.setCall c (.waiting none (some x.inserted)))
          | .ok (some frozen) e =>
              some ({ x with engine := e }.setCall c (.spawningFlush frozen x.inserted))
          | .error _ _ => none
      | _ => none
  | .waitForFlushes c =>
      match x.calls c with
      | .idle => some (x.setCall c (.waiting none none))
      | _ => none
  | .compact c request =>
      match x.calls c with
      | .idle => some (x.setCall c (.waiting (some request) none))
      | _ => none
  | .pop c =>
      match x.calls c with
      | .waiting request began =>
          match x.engine.flushTasks.getLast? with
          | some memgraph =>
              let e := { x.engine with flushTasks := x.engine.flushTasks.dropLast }
              some ({ x with engine := e }.setCall c (.awaiting memgraph request began))
          | none =>
              match request, began with
              | some request, began => some (x.setCall c (.selecting request began))
              | none, none => some (x.setCall c .idle)
              | none, some began =>
                  if x.engine.config.autoCompaction then
                    some (x.setCall c (.waiting (some (.full false)) (some began)))
                  else some (x.setCall c (.flushed began))
      | _ => none
  | .await c =>
      match x.calls c with
      | .awaiting memgraph request began =>
          match x.ended memgraph with
          | some true => some (x.setCall c (.waiting request began))
          | some false => some (x.setCall c .idle)
          | none => none
      | _ => none
  | .select c =>
      match x.calls c with
      | .selecting request began =>
          match selection x.engine request with
          | some kind =>
              some ((x.setJob (.call c) (some { kind := kind, stage := .load })).setCall c
                (.compacting began))
          | none => some (x.setCall c (returned began))
      | _ => none
  | .job p fault =>
      match x.jobs p with
      | some j =>
          let fault := fault.map fun durable => { after := 0, durable := durable }
          match j.step { x.engine with fault := fault } with
          | .ok (some stage) e =>
              some ({ x with engine := { e with fault := none } }.setJob p (some { j with stage := stage }))
          | .ok none e => some ({ x with engine := { e with fault := none } }.finish p true)
          | .error _ e => some ({ x with engine := { e with fault := none } }.finish p false)
      | none => none
  | .getNeighbors c src edgeType snapshot =>
      match x.calls c with
      | .idle =>
          let lock := x.locks (shard src)
          if lock.writer = none then
            some ((x.setLock src { lock with readers := c :: lock.readers }).setCall c
              (.looking x.engine.current src edgeType snapshot))
          else none
      | _ => none
  | .read c =>
      match x.calls c with
      | .looking v src edgeType snapshot =>
          let lock := x.locks (shard src)
          let x := x.setLock src { lock with readers := lock.readers.erase c }
          match Engine.withCache (fun files => LsmGraph.getNeighborsTypedInternal files x.engine.heap v
              x.engine.index src edgeType snapshot) x.engine with
          | .ok _ e => some ({ x with engine := e }.setCall c .idle)
          | .error _ e => some ({ x with engine := e }.setCall c .idle)
      | _ => none
  | .done c =>
      match x.calls c with
      | .flushed _ => some (x.setCall c .idle)
      | _ => none

end Sys

end LsmGraph
