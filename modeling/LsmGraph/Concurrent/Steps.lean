import LsmGraph.Concurrent.Machine

/-! # What a step can do

`Sys.Step x a y` lists the ways in which `a` leads from `x` to `y`, with the new state spelled out: a
call goes from one wait to the next (`Sys.Turn`), draws a timestamp, writes, rotates, hands its
memgraph over, starts to compact or to look something up; or a job does one thing
(`JobKind.Effect`). `step_cases` shows that the list is complete. Every invariant of the concurrent
engine is checked against it, and none looks at `Sys.step` itself. -/

namespace LsmGraph

open ErrorState

namespace Engine

variable {e : Engine}

/-- A record is put into the active memgraph. -/
def withInserted (edge : EdgeRecord) (e : Engine) : Engine :=
  { e with heap := Function.update e.heap e.active ((e.heap e.active).insert edge) }

/-- The active memgraph is frozen and a new one published. -/
def withNewActive (e : Engine) : Engine :=
  { e with
    heap := Function.update e.heap e.nextMemGraphId
      (MemGraph.new e.config.memgraphCapacityBytes e.config.inlineSegmentCapacity)
    nextMemGraphId := e.nextMemGraphId + 1
    active := e.nextMemGraphId
    current := e.current.rotate e.nextMemGraphId }

theorem rotate_apply (e : Engine) : rotate e = .ok e.active e.withNewActive := rfl

theorem insertActive_apply (edge : EdgeRecord) (e : Engine) :
    insertActive edge e = if ((e.withInserted edge).heap e.active).isFull then
      .ok (some e.active) (e.withInserted edge).withNewActive
    else .ok none (e.withInserted edge) := by
  rw [insertActive, bind_of_ok (modify_apply _), bind_of_ok get_apply]
  by_cases hfull : ((e.withInserted edge).heap e.active).isFull = true
  · rw [if_pos hfull]
    exact (congrFun (if_pos hfull) _).trans (bind_of_ok (rotate_apply _))
  · rw [if_neg hfull]
    exact congrFun (if_neg hfull) _

theorem rotateActive_apply (e : Engine) :
    rotateActive e = if (e.heap e.active).isEmpty then .ok none e
    else .ok (some e.active) e.withNewActive := by
  rw [rotateActive, bind_of_ok get_apply]
  split
  · rfl
  · exact bind_of_ok (rotate_apply _)

end Engine

/-! ## Jobs -/

/-- The segments a job is going to write. -/
def JobKind.toWrite (e : Engine) : JobKind → Except EngineError (List (List EdgeRecord))
  | .flush memgraph =>
      let edges := (e.heap memgraph).allEdgesSorted
      .ok (if edges = [] then [] else buildL0FlushSegments e.config edges)
  | .full l0Files l1Files =>
      match readAllFiles e.files (l0Files ++ l1Files) with
      | .ok updates => .ok [mergeLatestRecords updates e.timestamp true]
      | .error err => .error err
  | .target selectedL0 selectedL1 =>
      match readAllFiles e.files (selectedL0 ++ selectedL1) with
      | .ok updates =>
          .ok (splitCompactionSegments (mergeLatestRecords updates e.timestamp true)
            e.config.segmentTargetBytes)
      | .error err => .error err

/-- Loading changes nothing. -/
theorem JobKind.segments_apply (kind : JobKind) (e : Engine) :
    kind.segments e = match kind.toWrite e with
      | .ok segments => .ok segments e
      | .error err => .error err e := by
  cases kind with
  | flush memgraph =>
      rw [segments, bind_of_ok get_apply, toWrite]
      by_cases hempty : (e.heap memgraph).allEdgesSorted = []
      · simp [hempty]
      · simp [hempty]
  | full l0Files l1Files =>
      rw [segments, bind_of_ok get_apply, toWrite]
      cases readAllFiles e.files (l0Files ++ l1Files) with
      | ok updates => rfl
      | error err => rfl
  | target selectedL0 selectedL1 =>
      rw [segments, bind_of_ok get_apply, toWrite]
      cases readAllFiles e.files (selectedL0 ++ selectedL1) with
      | ok updates => rfl
      | error err => rfl

/-- How it goes on with a job. -/
inductive Progress
  | on (stage : Stage)
  | off (ok : Bool)

/-- What one step of a job does to the engine, and how the job goes on. -/
inductive JobKind.Effect (kind : JobKind) (fault : Option Bool) (e : Engine) :
    Stage → Progress → Engine → Prop
  | nothing (h : kind.toWrite e = .ok []) : Effect kind fault e .load (.off true) e
  | unreadable {err : EngineError} (h : kind.toWrite e = .error err) :
      Effect kind fault e .load (.off false) e
  | load {segments : List (List EdgeRecord)} (h : kind.toWrite e = .ok segments)
      (hne : segments ≠ []) : Effect kind fault e .load (.on (.create segments [])) e
  | created {outputs : List CsrSegmentMeta} :
      Effect kind fault e (.create [] outputs) (.on (.delete 0 outputs)) e
  | alloc {segmentEdges : List EdgeRecord} {segments : List (List EdgeRecord)}
      {outputs : List CsrSegmentMeta} :
      Effect kind fault e (.create (segmentEdges :: segments) outputs)
        (.on (.write e.nextFileId segmentEdges segments outputs))
        { e with nextFileId := e.nextFileId + 1 }
  | write {fileId : FileId} {segmentEdges : List EdgeRecord} {segments : List (List EdgeRecord)}
      {outputs : List CsrSegmentMeta} (hfault : fault = none) :
      Effect kind fault e (.write fileId segmentEdges segments outputs)
        (.on (.commit (CsrWriter.writeSegment kind.level fileId segmentEdges).2 segments outputs))
        (e.withFile kind.level fileId (CsrWriter.writeSegment kind.level fileId segmentEdges).1)
  | writeFails {fileId : FileId} {segmentEdges : List EdgeRecord}
      {segments : List (List EdgeRecord)} {outputs : List CsrSegmentMeta} {durable : Bool}
      (hfault : fault = some durable) :
      Effect kind fault e (.write fileId segmentEdges segments outputs) (.off false)
        (if durable then
          e.withFile kind.level fileId (CsrWriter.writeSegment kind.level fileId segmentEdges).1
        else e)
  | commit {m : CsrSegmentMeta} {segments : List (List EdgeRecord)} {outputs : List CsrSegmentMeta}
      (hfault : fault = none) :
      Effect kind fault e (.commit m segments outputs) (.on (.create segments (outputs ++ [m])))
        (e.withRecord (.createFile m))
  | commitFails {m : CsrSegmentMeta} {segments : List (List EdgeRecord)}
      {outputs : List CsrSegmentMeta} {durable : Bool} (hfault : fault = some durable) :
      Effect kind fault e (.commit m segments outputs) (.off false)
        (if durable then e.withRecord (.createFile m) else e)
  | delete {n : Nat} {m : CsrSegmentMeta} {outputs : List CsrSegmentMeta}
      (hm : kind.inputs[n]? = some m) (hfault : fault = none) :
      Effect kind fault e (.delete n outputs) (.on (.delete (n + 1) outputs))
        (e.withRecord (.deleteFile m.fileId))
  | deleteFails {n : Nat} {m : CsrSegmentMeta} {outputs : List CsrSegmentMeta} {durable : Bool}
      (hm : kind.inputs[n]? = some m) (hfault : fault = some durable) :
      Effect kind fault e (.delete n outputs) (.off false)
        (if durable then e.withRecord (.deleteFile m.fileId) else e)
  | deleted {n : Nat} {outputs : List CsrSegmentMeta} (hm : kind.inputs[n]? = none) :
      Effect kind fault e (.delete n outputs) (.on (.pin outputs)) e
  | pin {outputs : List CsrSegmentMeta} :
      Effect kind fault e (.pin outputs) (.on (.publish e.current outputs)) e
  | publish {old : Version} {outputs : List CsrSegmentMeta} :
      Effect kind fault e (.publish old outputs) (.on .rebuild)
        { e with current := kind.next old outputs }
  | rebuild : Effect kind fault e .rebuild (.on (.install e.current)) e
  | install {v : Version} {entries : MultiLevelIndex} {cache : CsrMetadataCache}
      (h : buildIndex e.files v e.metadataCache = .ok entries cache) :
      Effect kind fault e (.install v) (.off true)
        { e with index := entries, metadataCache := cache }
  | installFails {v : Version} {err : EngineError} {cache : CsrMetadataCache}
      (h : buildIndex e.files v e.metadataCache = .error err cache) :
      Effect kind fault e (.install v) (.off false) { e with metadataCache := cache }

/-- How a job goes on, from the result of its step. -/
def Progress.of : EStateM.Result EngineError Engine (Option Stage) → Progress
  | .ok (some stage) _ => .on stage
  | .ok none _ => .off true
  | .error _ _ => .off false

/-- An I/O operation goes through without a fault, and with one it fails. -/
theorem Engine.io_armed {fault : Option Bool} {e e₁ : Engine}
    (he₁ : e₁ = { e with fault := fault.map fun durable => { after := 0, durable := durable } })
    (effect : Engine → Engine) :
    fault = none ∧ Engine.io effect e₁ = .ok () (effect e₁) ∨
      ∃ durable, fault = some durable ∧
        Engine.io effect e₁ = .error .io (if durable then effect e₁ else e₁) := by
  subst he₁
  cases fault with
  | none => exact Or.inl ⟨rfl, rfl⟩
  | some durable => exact Or.inr ⟨durable, rfl, rfl⟩

/-- The last step of a job installs the index it has built, or fails to build it. -/
theorem JobKind.effect_install (kind : JobKind) (fault : Option Bool) {e e₁ : Engine}
    (he : ({ e₁ with fault := none } : Engine) = e) (v : Version) :
    kind.Effect fault e (.install v) (.of (Job.step { kind := kind, stage := .install v } e₁))
      { stateOf (Job.step { kind := kind, stage := .install v } e₁) with fault := none } := by
  have hbuild : buildIndex e₁.files v e₁.metadataCache = buildIndex e.files v e.metadataCache := by
    rw [← he]
  simp only [Job.step]
  cases hresult : buildIndex e.files v e.metadataCache with
  | ok entries cache =>
      have hrun : Engine.withCache (fun files => buildIndex files v) e₁ =
          .ok entries { e₁ with metadataCache := cache } := by
        rw [Engine.withCache, hbuild, hresult]
      rw [bind_of_ok hrun, bind_of_ok (modify_apply _), pure_apply, stateOf_ok]
      have hengine : ({ e₁ with metadataCache := cache, index := entries, fault := none } : Engine) =
          { e with index := entries, metadataCache := cache } := by
        rw [← he]
      exact hengine ▸ .install hresult
  | error err cache =>
      have hrun : Engine.withCache (fun files => buildIndex files v) e₁ =
          .error err { e₁ with metadataCache := cache } := by
        rw [Engine.withCache, hbuild, hresult]
      rw [bind_of_error hrun, stateOf_error]
      have hengine : ({ e₁ with metadataCache := cache, fault := none } : Engine) =
          { e with metadataCache := cache } := by
        rw [← he]
      exact hengine ▸ .installFails hresult

/-- **The steps of a job** are those of `JobKind.Effect`. -/
theorem Job.effect_step (kind : JobKind) (stage : Stage) (fault : Option Bool) {e e₁ : Engine}
    (he₁ : e₁ = { e with fault := fault.map fun durable => { after := 0, durable := durable } })
    (hfault : e.fault = none) :
    kind.Effect fault e stage (.of (Job.step { kind := kind, stage := stage } e₁))
      { stateOf (Job.step { kind := kind, stage := stage } e₁) with fault := none } := by
  have he : ({ e₁ with fault := none } : Engine) = e := by
    rw [he₁, ← hfault]
  have htoWrite : kind.segments e₁ = match kind.toWrite e with
      | .ok segments => .ok segments e₁
      | .error err => .error err e₁ := by
    rw [JobKind.segments_apply, he₁]
    cases kind with
    | _ => rfl
  have hio := Engine.io_armed he₁
  have hif : ∀ (effect : Engine → Engine) (durable : Bool),
      ({ effect e₁ with fault := none } : Engine) = effect e →
      ({ (if durable then effect e₁ else e₁) with fault := none } : Engine) =
        if durable then effect e else e := by
    intro effect durable heffect
    cases durable with
    | false => exact he
    | true => exact heffect
  have hwithRecord : ∀ record,
      ({ e₁.withRecord record with fault := none } : Engine) = e.withRecord record := fun record =>
    congrArg (Engine.withRecord record) he
  cases stage with
  | load =>
      simp only [Job.step]
      cases hsegments : kind.toWrite e with
      | ok segments =>
          rw [bind_of_ok (htoWrite.trans (by rw [hsegments]))]
          by_cases hempty : segments = []
          · rw [if_pos hempty, pure_apply, stateOf_ok, he]
            exact .nothing (hempty ▸ hsegments)
          · rw [if_neg hempty, pure_apply, stateOf_ok, he]
            exact .load hsegments hempty
      | error err =>
          rw [bind_of_error (htoWrite.trans (by rw [hsegments])), stateOf_error, he]
          exact .unreadable hsegments
  | create segments outputs =>
      cases segments with
      | nil =>
          show kind.Effect fault e _ (.on _) { e₁ with fault := none }
          rw [he]
          exact .created
      | cons segmentEdges segments =>
          have hnext : e₁.nextFileId = e.nextFileId := by
            rw [← he]
          have hengine : ({ e₁ with nextFileId := e₁.nextFileId + 1, fault := none } : Engine) =
              { e with nextFileId := e.nextFileId + 1 } := by
            rw [← he]
          show kind.Effect fault e _ (.on (.write e₁.nextFileId segmentEdges segments outputs)) _
          rw [hnext]
          exact hengine ▸ .alloc
  | write fileId segmentEdges segments outputs =>
      have hwithFile : ({ e₁.withFile kind.level fileId
          (CsrWriter.writeSegment kind.level fileId segmentEdges).1 with fault := none } : Engine) =
            e.withFile kind.level fileId (CsrWriter.writeSegment kind.level fileId segmentEdges).1 :=
        congrArg (Engine.withFile kind.level fileId _) he
      simp only [Job.step]
      rcases hio (Engine.withFile kind.level fileId
        (CsrWriter.writeSegment kind.level fileId segmentEdges).1) with
        ⟨hnone, hrun⟩ | ⟨durable, hsome, hrun⟩
      · have hwrite : Engine.writeSegment kind.level fileId segmentEdges e₁ =
            .ok (CsrWriter.writeSegment kind.level fileId segmentEdges).2 _ := bind_of_ok hrun
        rw [bind_of_ok hwrite, pure_apply, stateOf_ok, hwithFile]
        exact .write hnone
      · have hwrite : Engine.writeSegment kind.level fileId segmentEdges e₁ = .error .io _ :=
          bind_of_error hrun
        rw [bind_of_error hwrite, stateOf_error, hif _ _ hwithFile]
        exact .writeFails hsome
  | commit m segments outputs =>
      simp only [Job.step, Engine.appendManifest]
      rcases hio (Engine.withRecord (.createFile m)) with ⟨hnone, hrun⟩ | ⟨durable, hsome, hrun⟩
      · rw [bind_of_ok hrun, pure_apply, stateOf_ok, hwithRecord]
        exact .commit hnone
      · rw [bind_of_error hrun, stateOf_error, hif _ _ (hwithRecord _)]
        exact .commitFails hsome
  | delete n outputs =>
      cases hm : kind.inputs[n]? with
      | none =>
          simp only [Job.step, hm]
          rw [pure_apply, stateOf_ok, he]
          exact .deleted hm
      | some m =>
          simp only [Job.step, hm, Engine.appendManifest]
          rcases hio (Engine.withRecord (.deleteFile m.fileId)) with
            ⟨hnone, hrun⟩ | ⟨durable, hsome, hrun⟩
          · rw [bind_of_ok hrun, pure_apply, stateOf_ok, hwithRecord]
            exact .delete hm hnone
          · rw [bind_of_error hrun, stateOf_error, hif _ _ (hwithRecord _)]
            exact .deleteFails hm hsome
  | pin outputs =>
      show kind.Effect fault e _ (.on (.publish e₁.current outputs)) { e₁ with fault := none }
      rw [he, show e₁.current = e.current by rw [← he]]
      exact .pin
  | publish old outputs =>
      have hengine : ({ e₁ with current := kind.next old outputs, fault := none } : Engine) =
          { e with current := kind.next old outputs } := by
        rw [← he]
      show kind.Effect fault e _ (.on .rebuild) { e₁ with current := _, fault := none }
      exact hengine ▸ .publish
  | rebuild =>
      show kind.Effect fault e _ (.on (.install e₁.current)) { e₁ with fault := none }
      rw [he, show e₁.current = e.current by rw [← he]]
      exact .rebuild
  | install v => exact JobKind.effect_install kind fault he v

/-! ## Calls and jobs together -/

namespace Call

/-- The memgraph a call has rotated out and not spawned a flush for yet. -/
def spawning : Call → Option MemGraphId
  | .spawningWrite memgraph _ => some memgraph
  | .spawningFlush memgraph _ => some memgraph
  | _ => none

/-- The memgraph whose flush a call has spawned and whose handle it has not pushed yet. -/
def pushing : Call → Option MemGraphId
  | .pushingWrite memgraph _ => some memgraph
  | .pushingFlush memgraph _ => some memgraph
  | _ => none

end Call

namespace Sys

/-- The steps that only change where a call stands. -/
inductive Turn (x : Sys) : Action → CallId → Call → Prop
  | flushActive {c : CallId} (hcall : x.calls c = .idle)
      (hempty : (x.engine.heap x.engine.active).isEmpty = true) :
      Turn x (.flushActive c) c (.waiting none (some x.inserted))
  | waitForFlushes {c : CallId} (hcall : x.calls c = .idle) :
      Turn x (.waitForFlushes c) c (.waiting none none)
  | compact {c : CallId} {request : Request} (hcall : x.calls c = .idle) :
      Turn x (.compact c request) c (.waiting (some request) none)
  | select {c : CallId} {request : Request} {began : Option (List EdgeRecord)}
      (hcall : x.calls c = .waiting (some request) began) (hnone : x.engine.flushTasks = []) :
      Turn x (.pop c) c (.selecting request began)
  | waited {c : CallId} (hcall : x.calls c = .waiting none none)
      (hnone : x.engine.flushTasks = []) : Turn x (.pop c) c .idle
  | flushed {c : CallId} {began : List EdgeRecord} (hcall : x.calls c = .waiting none (some began))
      (hnone : x.engine.flushTasks = []) :
      Turn x (.pop c) c (if x.engine.config.autoCompaction then
        .waiting (some (.full false)) (some began) else .flushed began)
  | awaited {c : CallId} {memgraph : MemGraphId} {request : Option Request}
      {began : Option (List EdgeRecord)} {ok : Bool}
      (hcall : x.calls c = .awaiting memgraph request began) (hended : x.ended memgraph = some ok) :
      Turn x (.await c) c (if ok then .waiting request began else .idle)
  | nothing {c : CallId} {request : Request} {began : Option (List EdgeRecord)}
      (hcall : x.calls c = .selecting request began) (hnone : selection x.engine request = none) :
      Turn x (.select c) c (returned began)
  | done {c : CallId} {began : List EdgeRecord} (hcall : x.calls c = .flushed began) :
      Turn x (.done c) c .idle

/-- What comes of a step of the job of `p`. -/
def proceed (x : Sys) (p : Party) (kind : JobKind) : Progress → Sys
  | .on stage => x.setJob p (some { kind := kind, stage := stage })
  | .off ok => x.finish p ok

/-- The steps, with the states they lead to. -/
inductive Step (x : Sys) : Action → Sys → Prop
  | turn {a : Action} {c : CallId} {call : Call} (h : Turn x a c call) : Step x a (x.setCall c call)
  | draw {a : Action} {c : CallId} {edge : EdgeRecord} (hcall : x.calls c = .idle)
      (hoverflow : x.engine.timestamp + 1 ≠ 0) (hts : edge.ts = x.engine.timestamp + 1)
      (ha : ∀ p fault, a ≠ .job p fault) :
      Step x a ({ x with engine := { x.engine with timestamp := edge.ts } }.setCall c (.writing edge))
  | write {c : CallId} {edge : EdgeRecord} (hcall : x.calls c = .writing edge)
      (hlock : (x.locks (shard edge.src)).readers = [] ∧ (x.locks (shard edge.src)).writer = none) :
      Step x (.write c) ({ x with
        engine := x.engine.withInserted edge
        inserted := x.inserted ++ [edge] }.setCall c .idle)
  | writeFull {c : CallId} {edge : EdgeRecord} (hcall : x.calls c = .writing edge)
      (hlock : (x.locks (shard edge.src)).readers = [] ∧ (x.locks (shard edge.src)).writer = none) :
      Step x (.write c) (({ x with
        engine := (x.engine.withInserted edge).withNewActive
        inserted := x.inserted ++ [edge] }.setLock edge.src
          { x.locks (shard edge.src) with writer := some c }).setCall c
            (.spawningWrite x.engine.active edge.src))
  | flushActive {c : CallId} (hcall : x.calls c = .idle)
      (hfull : (x.engine.heap x.engine.active).isEmpty = false) :
      Step x (.flushActive c) ({ x with engine := x.engine.withNewActive }.setCall c
        (.spawningFlush x.engine.active x.inserted))
  | spawn {c : CallId} {memgraph : MemGraphId} {call : Call}
      (hcall : (x.calls c).spawning = some memgraph) (hpushing : call.pushing = some memgraph)
      (hwrite : ∀ src, x.calls c = .spawningWrite memgraph src → call = .pushingWrite memgraph src)
      (hbegan : ∀ began, x.calls c = .spawningFlush memgraph began →
        call = .pushingFlush memgraph began) :
      Step x (.spawn c) ((x.setJob (.task memgraph)
        (some { kind := .flush memgraph, stage := .load })).setCall c call)
  | pushWrite {c : CallId} {memgraph : MemGraphId} {src : VertexId}
      (hcall : x.calls c = .pushingWrite memgraph src) :
      Step x (.push c) (({ x with
        engine := { x.engine with flushTasks := x.engine.flushTasks ++ [memgraph] } }.setLock src
          { x.locks (shard src) with writer := none }).setCall c .idle)
  | pushFlush {c : CallId} {memgraph : MemGraphId} {began : List EdgeRecord}
      (hcall : x.calls c = .pushingFlush memgraph began) :
      Step x (.push c) ({ x with
        engine := { x.engine with flushTasks := x.engine.flushTasks ++ [memgraph] } }.setCall c
          (.waiting none (some began)))
  | pop {c : CallId} {memgraph : MemGraphId} {request : Option Request}
      {began : Option (List EdgeRecord)} (hcall : x.calls c = .waiting request began)
      (hlast : x.engine.flushTasks.getLast? = some memgraph) :
      Step x (.pop c) ({ x with
        engine := { x.engine with flushTasks := x.engine.flushTasks.dropLast } }.setCall c
          (.awaiting memgraph request began))
  | select {c : CallId} {request : Request} {began : Option (List EdgeRecord)} {kind : JobKind}
      (hcall : x.calls c = .selecting request began)
      (hkind : selection x.engine request = some kind) :
      Step x (.select c) ((x.setJob (.call c) (some { kind := kind, stage := .load })).setCall c
        (.compacting began))
  | job {p : Party} {fault : Option Bool} {kind : JobKind} {stage : Stage} {progress : Progress}
      {e : Engine} (hjob : x.jobs p = some { kind := kind, stage := stage })
      (heffect : kind.Effect fault x.engine stage progress e) :
      Step x (.job p fault) ({ x with engine := e }.proceed p kind progress)
  | getNeighbors {c : CallId} {src : VertexId} {edgeType : Option EdgeType} {snapshot : SnapshotId}
      (hcall : x.calls c = .idle) (hlock : (x.locks (shard src)).writer = none) :
      Step x (.getNeighbors c src edgeType snapshot) ((x.setLock src
        { x.locks (shard src) with readers := c :: (x.locks (shard src)).readers }).setCall c
          (.looking x.engine.current src edgeType snapshot))
  | read {c : CallId} {v : Version} {src : VertexId} {edgeType : Option EdgeType}
      {snapshot : SnapshotId} {cache : CsrMetadataCache}
      (hcall : x.calls c = .looking v src edgeType snapshot)
      (hcache : cache = stateOf (getNeighborsTypedInternal x.engine.files x.engine.heap v
        x.engine.index src edgeType snapshot x.engine.metadataCache)) :
      Step x (.read c) ({ x.setLock src { x.locks (shard src) with
        readers := (x.locks (shard src)).readers.erase c } with
          engine := { x.engine with metadataCache := cache } }.setCall c .idle)

/-- A draw. -/
theorem step_draw {x y : Sys} {a : Action} {c : CallId} {mk : Timestamp → EdgeRecord}
    (hmk : ∀ ts, (mk ts).ts = ts) (ha : ∀ p fault, a ≠ .job p fault) (h : x.draw c mk = some y) :
    Step x a y := by
  unfold draw at h
  cases hcall : x.calls c with
  | idle =>
      simp only [hcall, Engine.nextTimestamp] at h
      split at h
      · rename_i ts e hnext
        split at hnext
        · exact absurd hnext nofun
        · rename_i hoverflow
          cases hnext
          cases h
          have hstep := @Step.draw x a c (mk (x.engine.timestamp + 1)) hcall hoverflow (hmk _) ha
          rwa [hmk] at hstep
      · exact absurd h nofun
  | _ => simp [hcall] at h

/-- A call puts the edge it drew into the active memgraph. -/
theorem step_write {x y : Sys} {c : CallId} (h : x.step (.write c) = some y) :
    Step x (.write c) y := by
  unfold step at h
  cases hcall : x.calls c with
  | writing edge =>
      simp only [hcall] at h
      by_cases hlock : (x.locks (shard edge.src)).readers = [] ∧
          (x.locks (shard edge.src)).writer = none
      · rw [if_pos hlock, Engine.insertActive_apply] at h
        by_cases hfull : ((x.engine.withInserted edge).heap x.engine.active).isFull = true
        · rw [if_pos hfull] at h
          cases h
          exact .writeFull hcall hlock
        · rw [if_neg hfull] at h
          cases h
          exact .write hcall hlock
      · rw [if_neg hlock] at h
        cases h
  | _ => simp [hcall] at h

/-- A waiting call takes a flush task, or finds none left. -/
theorem step_pop {x y : Sys} {c : CallId} (h : x.step (.pop c) = some y) : Step x (.pop c) y := by
  unfold step at h
  cases hcall : x.calls c with
  | waiting request began =>
      simp only [hcall] at h
      cases hlast : x.engine.flushTasks.getLast? with
      | some memgraph =>
          simp only [hlast] at h
          cases h
          exact .pop hcall hlast
      | none =>
          have hnone := List.getLast?_eq_none_iff.mp hlast
          simp only [hlast] at h
          cases request with
          | some request =>
              cases h
              exact .turn (.select hcall hnone)
          | none =>
              cases began with
              | none =>
                  cases h
                  exact .turn (.waited hcall hnone)
              | some began =>
                  have hturn := Step.turn (Turn.flushed hcall hnone)
                  by_cases hauto : x.engine.config.autoCompaction = true
                  · simp only [hauto, if_true] at h hturn
                    cases h
                    exact hturn
                  · simp only [hauto] at h hturn
                    cases h
                    exact hturn
  | _ => simp [hcall] at h

/-- A waiting call sees the flush task it took end. -/
theorem step_await {x y : Sys} {c : CallId} (h : x.step (.await c) = some y) :
    Step x (.await c) y := by
  unfold step at h
  cases hcall : x.calls c with
  | awaiting memgraph request began =>
      simp only [hcall] at h
      cases hended : x.ended memgraph with
      | none => simp [hended] at h
      | some ok =>
          have hturn := Step.turn (Turn.awaited hcall hended)
          cases ok with
          | true =>
              simp only [hended] at h
              cases h
              exact hturn
          | false =>
              simp only [hended] at h
              cases h
              exact hturn
  | _ => simp [hcall] at h

/-- A flush or a compaction runs to its next lock. -/
theorem step_job {x y : Sys} {p : Party} {fault : Option Bool} (hfault : x.engine.fault = none)
    (h : x.step (.job p fault) = some y) : Step x (.job p fault) y := by
  unfold step at h
  cases hjob : x.jobs p with
  | none => simp [hjob] at h
  | some j =>
      obtain ⟨kind, stage⟩ := j
      have heffect := Job.effect_step kind stage fault rfl hfault
      simp only [hjob] at h
      cases hresult : Job.step { kind := kind, stage := stage } { x.engine with
          fault := fault.map fun durable => { after := 0, durable := durable } } with
      | ok next e =>
          rw [hresult] at heffect
          simp only [hresult] at h
          cases next with
          | some stage' =>
              cases h
              exact .job hjob heffect
          | none =>
              cases h
              exact .job hjob heffect
      | error err e =>
          rw [hresult] at heffect
          simp only [hresult] at h
          cases h
          exact .job hjob heffect

/-- A read looks its edges up. -/
theorem step_read {x y : Sys} {c : CallId} (h : x.step (.read c) = some y) : Step x (.read c) y := by
  unfold step at h
  cases hcall : x.calls c with
  | looking v src edgeType snapshot =>
      have hread := Step.read hcall rfl
      simp only [hcall, Engine.withCache] at h
      cases hresult : getNeighborsTypedInternal x.engine.files x.engine.heap v x.engine.index src
          edgeType snapshot x.engine.metadataCache with
      | ok updates cache =>
          rw [hresult] at hread
          simp only [setLock, hresult] at h
          cases h
          exact hread
      | error err cache =>
          rw [hresult] at hread
          simp only [setLock, hresult] at h
          cases h
          exact hread
  | _ => simp [hcall] at h

/-- **What a step can do.** -/
theorem step_cases {x y : Sys} {a : Action} (hfault : x.engine.fault = none)
    (h : x.step a = some y) : Step x a y := by
  cases a with
  | insertEdge c src dst edgeType => exact step_draw (fun _ => rfl) (fun _ _ => nofun) h
  | deleteEdge c src dst edgeType => exact step_draw (fun _ => rfl) (fun _ _ => nofun) h
  | write c => exact step_write h
  | spawn c =>
      unfold step at h
      cases hcall : x.calls c with
      | spawningWrite memgraph src =>
          simp only [hcall] at h
          cases h
          exact .spawn (by rw [hcall]; rfl) rfl (fun _ heq => by rw [hcall] at heq; cases heq; rfl)
            fun _ heq => by rw [hcall] at heq; cases heq
      | spawningFlush memgraph began =>
          simp only [hcall] at h
          cases h
          exact .spawn (by rw [hcall]; rfl) rfl (fun _ heq => by rw [hcall] at heq; cases heq)
            fun _ heq => by rw [hcall] at heq; cases heq; rfl
      | _ => simp [hcall] at h
  | push c =>
      unfold step at h
      cases hcall : x.calls c with
      | pushingWrite memgraph src =>
          simp only [hcall] at h
          cases h
          exact .pushWrite hcall
      | pushingFlush memgraph began =>
          simp only [hcall] at h
          cases h
          exact .pushFlush hcall
      | _ => simp [hcall] at h
  | flushActive c =>
      unfold step at h
      cases hcall : x.calls c with
      | idle =>
          simp only [hcall] at h
          rw [Engine.rotateActive_apply] at h
          by_cases hempty : (x.engine.heap x.engine.active).isEmpty = true
          · rw [if_pos hempty] at h
            cases h
            exact .turn (.flushActive hcall hempty)
          · rw [if_neg hempty] at h
            cases h
            exact .flushActive hcall (Bool.eq_false_iff.mpr hempty)
      | _ => simp [hcall] at h
  | waitForFlushes c =>
      unfold step at h
      cases hcall : x.calls c with
      | idle =>
          simp only [hcall] at h
          cases h
          exact .turn (.waitForFlushes hcall)
      | _ => simp [hcall] at h
  | compact c request =>
      unfold step at h
      cases hcall : x.calls c with
      | idle =>
          simp only [hcall] at h
          cases h
          exact .turn (.compact hcall)
      | _ => simp [hcall] at h
  | pop c => exact step_pop h
  | await c => exact step_await h
  | select c =>
      unfold step at h
      cases hcall : x.calls c with
      | selecting request began =>
          simp only [hcall] at h
          cases hkind : selection x.engine request with
          | some kind =>
              simp only [hkind] at h
              cases h
              exact .select hcall hkind
          | none =>
              simp only [hkind] at h
              cases h
              exact .turn (.nothing hcall hkind)
      | _ => simp [hcall] at h
  | job p fault => exact step_job hfault h
  | getNeighbors c src edgeType snapshot =>
      unfold step at h
      cases hcall : x.calls c with
      | idle =>
          simp only [hcall] at h
          by_cases hlock : (x.locks (shard src)).writer = none
          · rw [if_pos hlock] at h
            cases h
            exact .getNeighbors hcall hlock
          · rw [if_neg hlock] at h
            cases h
      | _ => simp [hcall] at h
  | read c => exact step_read h
  | done c =>
      unfold step at h
      cases hcall : x.calls c with
      | flushed began =>
          simp only [hcall] at h
          cases h
          exact .turn (.done hcall)
      | _ => simp [hcall] at h

end Sys

end LsmGraph
