import LsmGraph.Engine.History
import LsmGraph.Library.Transition

/-! # A client and its engine

A `Session` is one client working with a store: the engine, the operations it has carried out
(`log`), those of them that no crash has cost it (`history`), and where the client stands in a
`flush_active`. `Session.step` is one step of the pair. A background flush is a step of its own,
possible from its rotation on; the operations that wait for flushes are possible when none is
running; operations that write files may be hit by an I/O fault, after which the engine goes on; and
the store may be reopened at any time, as after a crash, which costs the operations that were not
flushed. `Session.Inv` holds in every state reached (`inv_of_reaches`). -/

namespace LsmGraph

open ErrorState Transition

/-- Where the client stands. -/
inductive Client
  | idle
  /-- Inside `flush_active`, waiting. -/
  | flushing
  /-- Nothing was done since a `flush_active` returned `Ok`. -/
  | flushed
  deriving DecidableEq, Repr

structure Session where
  engine : Engine
  log : List EdgeRecord
  history : List EdgeRecord
  client : Client

/-- The steps of a session. Where a step writes files, `fault` says when I/O starts to fail. -/
inductive Op
  | insertEdge (src dst : VertexId) (edgeType : EdgeType)
  | deleteEdge (src dst : VertexId) (edgeType : EdgeType)
  | getNeighbors (src : VertexId) (edgeType : Option EdgeType) (snapshot : SnapshotId)
  | beginFlushActive
  | finishFlushActive (fault : Option IoFault)
  | compactL0ToL1 (fault : Option IoFault)
  | compactL0PartitionToL1 (fault : Option IoFault) (srcLabel : Int32) (edgeType : Option EdgeType)
  | compactL0RangeToL1 (fault : Option IoFault) (srcLabel : Int32) (edgeType : Option EdgeType)
      (minSrc maxSrc : VertexId)
  | runFlushTask (memgraph : MemGraphId)
  | reopen (config : LsmGraphConfig)

namespace Session

/-- After a write returned. -/
def afterWrite (x : Session) (mk : Timestamp → EdgeRecord) :
    EStateM.Result EngineError Engine SnapshotId → Option Session
  | .ok ts e =>
      some { engine := e, log := x.log ++ [mk ts], history := x.history ++ [mk ts], client := .idle }
  | .error _ _ => none

/-- After an operation that may be hit by an I/O fault returned, with `Ok` or not. -/
def afterMaintenance (x : Session) (done : Client) {α : Type} :
    EStateM.Result EngineError Engine α → Option Session
  | .ok _ e => some { x with engine := { e with fault := none }, client := done }
  | .error .io e => some { x with engine := { e with fault := none }, client := .idle }
  | .error _ _ => none

/-- After an operation that only goes on if it succeeded. -/
def afterOk (x : Session) (done : Client) {α : Type} :
    EStateM.Result EngineError Engine α → Option Session
  | .ok _ e => some { x with engine := e, client := done }
  | .error _ _ => none

/-- The engine with a fault to come. -/
def withFault (x : Session) (fault : Option IoFault) : Engine := { x.engine with fault := fault }

/-- One step, if it is possible. -/
def step (x : Session) : Op → Option Session
  | .insertEdge src dst edgeType =>
      if x.client = .flushing then none
      else x.afterWrite (EdgeRecord.insert src dst edgeType)
        (Engine.insertEdge src dst edgeType x.engine)
  | .deleteEdge src dst edgeType =>
      if x.client = .flushing then none
      else x.afterWrite (EdgeRecord.delete src dst edgeType)
        (Engine.deleteEdge src dst edgeType x.engine)
  | .getNeighbors src edgeType snapshot =>
      x.afterOk x.client (Engine.getNeighborsTypedInternal src edgeType snapshot x.engine)
  | .beginFlushActive =>
      if x.client = .flushing then none
      else x.afterOk .flushing (Engine.beginFlushActive x.engine)
  | .finishFlushActive fault =>
      if x.client = .flushing then
        x.afterMaintenance .flushed (Engine.finishFlushActive (x.withFault fault))
      else none
  | .compactL0ToL1 fault =>
      if x.client = .flushing then none
      else x.afterMaintenance .idle (Engine.compactL0ToL1 (x.withFault fault))
  | .compactL0PartitionToL1 fault srcLabel edgeType =>
      if x.client = .flushing then none
      else x.afterMaintenance .idle
        (Engine.compactL0PartitionToL1 srcLabel edgeType (x.withFault fault))
  | .compactL0RangeToL1 fault srcLabel edgeType minSrc maxSrc =>
      if x.client = .flushing then none
      else x.afterMaintenance .idle
        (Engine.compactL0RangeToL1 srcLabel edgeType minSrc maxSrc (x.withFault fault))
  | .runFlushTask memgraph =>
      if memgraph ∈ x.engine.running then
        x.afterOk x.client (Engine.runFlushTask memgraph x.engine)
      else none
  | .reopen config =>
      match Engine.openDir config x.engine.files x.engine.manifest with
      | .ok _ e =>
          some { x with
            engine := e, history := x.engine.flushedHistory x.history, client := .idle }
      | .error _ _ => none

/-- `Engine::create`. -/
def create (config : LsmGraphConfig) : Option Session :=
  match Engine.openDir config Engine.emptyDir [] with
  | .ok _ e => some { engine := e, log := [], history := [], client := .idle }
  | .error _ _ => none

/-- A configuration whose memgraphs are full after one edge. -/
def smallConfig : LsmGraphConfig where
  memgraphCapacityBytes := 32
  l0FileThreshold := 1
  autoCompaction := true
  graphAwareL0 := true

/-- The step meets no I/O fault. -/
def Faultless : Op → Prop
  | .finishFlushActive fault => fault = none
  | .compactL0ToL1 fault => fault = none
  | .compactL0PartitionToL1 fault _ _ => fault = none
  | .compactL0RangeToL1 fault _ _ _ _ => fault = none
  | _ => True

/-- The store is only reopened right after a `flush_active` that returned `Ok`. -/
def ReopensFlushed (x : Session) : Op → Prop
  | .reopen _ => x.client = .flushed
  | _ => True

instance : DecidablePred Faultless := fun op =>
  match op with
  | .finishFlushActive fault => inferInstanceAs (Decidable (fault = none))
  | .compactL0ToL1 fault => inferInstanceAs (Decidable (fault = none))
  | .compactL0PartitionToL1 fault _ _ => inferInstanceAs (Decidable (fault = none))
  | .compactL0RangeToL1 fault _ _ _ _ => inferInstanceAs (Decidable (fault = none))
  | .insertEdge _ _ _ | .deleteEdge _ _ _ | .getNeighbors _ _ _ | .beginFlushActive
  | .runFlushTask _ | .reopen _ => isTrue trivial

instance (x : Session) : DecidablePred (ReopensFlushed x) := fun op =>
  match op with
  | .reopen _ => inferInstanceAs (Decidable (x.client = .flushed))
  | .insertEdge _ _ _ | .deleteEdge _ _ _ | .getNeighbors _ _ _ | .beginFlushActive
  | .finishFlushActive _ | .compactL0ToL1 _ | .compactL0PartitionToL1 _ _ _
  | .compactL0RangeToL1 _ _ _ _ _ | .runFlushTask _ => isTrue trivial

/-- The files the step merges. -/
def inputs (x : Session) : Op → List CsrSegmentMeta
  | .finishFlushActive _ => x.engine.finishInputs
  | .compactL0ToL1 _ => x.engine.fullInputs true
  | .compactL0PartitionToL1 _ srcLabel edgeType =>
      x.engine.targetInputs { srcLabel, edgeType, minSrc := none, maxSrc := none }
  | .compactL0RangeToL1 _ srcLabel edgeType minSrc maxSrc =>
      x.engine.targetInputs { srcLabel, edgeType, minSrc := some minSrc, maxSrc := some maxSrc }
  | _ => []

/-! ## The invariant -/

/-- What holds of a session between two steps. -/
structure Inv (x : Session) : Prop where
  wf : x.engine.WF
  separated : x.engine.Separated
  tracks : x.engine.Tracks x.history
  fault_eq : x.engine.fault = none
  active_empty : x.client ≠ .idle → ∀ r, ¬ (x.engine.heap x.engine.active).Stores r
  running_nil : x.client = .flushed → x.engine.running = []

variable {x y : Session}

/-- A fault to come changes nothing yet. -/
theorem withFault_spec (h : x.Inv) (fault : Option IoFault) :
    (x.withFault fault).WF ∧ (x.withFault fault).Separated ∧
      (x.withFault fault).Tracks x.history :=
  ⟨{ h.wf with intact := h.wf.intact.congr rfl rfl rfl rfl },
    ⟨h.separated.unique, h.separated.notMem_disk, h.separated.notMem_live⟩,
    ⟨h.tracks.records_sub, h.tracks.live_sub, h.tracks.ascending, h.tracks.ts_le, h.tracks.covers,
      h.tracks.durable⟩⟩

/-- Once a flush has returned, no operation is outside the files. -/
theorem unflushed_of_flushed (h : x.Inv) (hclient : x.client = .flushed) :
    ∀ r, r ∉ x.engine.unflushed := by
  rintro r ⟨id, hid, hr⟩
  rcases (h.wf.mem_memgraphs id).mp hid with rfl | hid
  · exact h.active_empty (by rw [hclient]; exact nofun) r hr
  · rw [h.running_nil hclient] at hid
    exact absurd hid List.not_mem_nil

/-! ## What a step does -/

/-- The effect of a step on engine, histories and client: it writes a record, changes no data,
finishes a flush, merges files (as far as a fault let it), or reopens the store. -/
inductive Effect (x : Session) (op : Op) (y : Session) : Prop
  | write (r : EdgeRecord) (writes : x.engine.Writes y.engine r) (log : y.log = x.log ++ [r])
      (history : y.history = x.history ++ [r]) (client : y.client = .idle)
  | read (same : x.engine.SameData y.engine) (log : y.log = x.log) (history : y.history = x.history)
      (client : y.client = x.client) (heap : y.engine.heap = x.engine.heap)
      (active : y.engine.active = x.engine.active) (running : y.engine.running = x.engine.running)
  | beginFlush (same : x.engine.SameData y.engine) (log : y.log = x.log)
      (history : y.history = x.history) (client : y.client = .flushing)
      (empty : ∀ r, ¬ (y.engine.heap y.engine.active).Stores r)
  | flush (m : MemGraphId) (running : m ∈ x.engine.running) (flushes : x.engine.Flushes y.engine m)
      (log : y.log = x.log) (history : y.history = x.history) (client : y.client = x.client)
  | compact (compacts : Engine.Compacts (fileRecords x.engine.files (x.inputs op)) x.engine y.engine)
      (running : x.engine.running = []) (log : y.log = x.log) (history : y.history = x.history)
      (client : y.client = .idle ∨ x.client = .flushing)
  | reopen (config : LsmGraphConfig) (isReopen : op = .reopen config)
      (tracks : y.engine.Tracks y.history) (log : y.log = x.log)
      (history : y.history = x.engine.flushedHistory x.history) (client : y.client = .idle)
      (unflushed : ∀ r, r ∉ y.engine.unflushed)

/-- What a write does. -/
theorem effect_afterWrite (h : x.Inv) {op : Op} {mk : Timestamp → EdgeRecord}
    (hmk : ∀ ts, (mk ts).ts = ts)
    (hy : x.afterWrite mk
      ((do let ts ← Engine.nextTimestamp; Engine.writeEdge (mk ts); pure ts) x.engine) = some y) :
    y.engine.WF ∧ y.engine.fault = none ∧ Effect x op y := by
  by_cases hoverflow : x.engine.timestamp + 1 = 0
  · have herror : Engine.nextTimestamp x.engine =
        .error .overflow { x.engine with timestamp := x.engine.timestamp + 1 } := if_pos hoverflow
    rw [bind_of_error herror] at hy
    exact absurd hy nofun
  · obtain ⟨e, hrun, hwf, hwrites⟩ := Engine.write_spec h.wf hmk hoverflow
    rw [hrun, afterWrite, Option.some.injEq] at hy
    subst hy
    exact ⟨hwf, hwrites.fault_eq.trans h.fault_eq, .write _ hwrites rfl rfl rfl⟩

/-- What a compaction does, whether or not a fault stops it. -/
theorem effect_afterMaintenance {op : Op} {fault : Option IoFault} {done : Client} {α : Type}
    {result : EStateM.Result EngineError Engine α} (hdone : done = .idle ∨ x.client = .flushing)
    (hresult : (x.withFault fault).Outcome (x.inputs op) result)
    (hy : x.afterMaintenance done result = some y) :
    y.engine.WF ∧ y.engine.fault = none ∧ Effect x op y := by
  have hfinish : ∀ {e : Engine} {client : Client}, client = .idle ∨ x.client = .flushing →
      x.engine.running = [] → e.WF →
      Engine.Compacts (fileRecords x.engine.files (x.inputs op)) (x.withFault fault) e →
      ({ e with fault := none } : Engine).WF ∧ (none : Option IoFault) = none ∧
        Effect x op { x with engine := { e with fault := none }, client := client } := by
    intro e client hclient hrunning hwf hcompacts
    -- a compaction does not read the fault of an engine
    exact ⟨{ hwf with intact := hwf.intact.congr rfl rfl rfl rfl }, rfl,
      .compact { hcompacts with } hrunning rfl rfl hclient⟩
  cases result with
  | ok a e =>
      obtain ⟨hrunning, hwf, hcompacts, -⟩ := hresult
      rw [afterMaintenance, Option.some.injEq] at hy
      exact hy ▸ hfinish hdone hrunning hwf hcompacts
  | error err e =>
      cases err with
      | io =>
          obtain ⟨hrunning, hwf, hcompacts, -⟩ := hresult
          rw [afterMaintenance, Option.some.injEq] at hy
          exact hy ▸ hfinish (Or.inl rfl) hrunning hwf hcompacts
      | blocked => exact absurd hy nofun
      | decode => exact absurd hy nofun
      | overflow => exact absurd hy nofun

/-- **What a step can do.** -/
theorem step_effect (h : x.Inv) {op : Op} (hy : x.step op = some y) :
    y.engine.WF ∧ y.engine.fault = none ∧ Effect x op y := by
  cases op with
  | insertEdge src dst edgeType =>
      rw [step, Option.ite_none_left_eq_some] at hy
      exact effect_afterWrite h (fun _ => rfl) hy.2
  | deleteEdge src dst edgeType =>
      rw [step, Option.ite_none_left_eq_some] at hy
      exact effect_afterWrite h (fun _ => rfl) hy.2
  | getNeighbors src edgeType snapshot =>
      obtain ⟨updates, cache, hrun, hwf, -⟩ :=
        Engine.getNeighborsTypedInternal_eq h.wf src edgeType snapshot
      rw [step, hrun, afterOk, Option.some.injEq] at hy
      subst hy
      have hsame : x.engine.SameData { x.engine with metadataCache := cache } :=
        ⟨rfl, rfl, rfl, rfl, rfl, rfl,
          fun hsep => ⟨hsep.unique, hsep.notMem_disk, hsep.notMem_live⟩⟩
      exact ⟨hwf, h.fault_eq, .read hsame rfl rfl rfl rfl rfl rfl⟩
  | beginFlushActive =>
      rw [step, Option.ite_none_left_eq_some] at hy
      obtain ⟨-, hy⟩ := hy
      obtain ⟨e, hrun, hwf, hsame, hempty⟩ := Engine.beginFlushActive_spec h.wf
      rw [hrun, afterOk, Option.some.injEq] at hy
      subst hy
      exact ⟨hwf, hsame.fault_eq.trans h.fault_eq, .beginFlush hsame rfl rfl rfl hempty⟩
  | finishFlushActive fault =>
      obtain ⟨hwf, -, htracks⟩ := withFault_spec h fault
      rw [step, Option.ite_none_right_eq_some] at hy
      obtain ⟨hclient, hy⟩ := hy
      have houtcome := Engine.finishFlushActive_outcome hwf htracks.coherent
      exact effect_afterMaintenance (Or.inr hclient) houtcome hy
  | compactL0ToL1 fault =>
      obtain ⟨hwf, -, htracks⟩ := withFault_spec h fault
      rw [step, Option.ite_none_left_eq_some] at hy
      have houtcome := Engine.compactL0ToL1Inner_outcome hwf htracks.coherent true
      exact effect_afterMaintenance (Or.inl rfl) houtcome hy.2
  | compactL0PartitionToL1 fault srcLabel edgeType =>
      obtain ⟨hwf, -, htracks⟩ := withFault_spec h fault
      rw [step, Option.ite_none_left_eq_some] at hy
      exact effect_afterMaintenance (Or.inl rfl)
        (Engine.compactL0TargetToL1_outcome hwf htracks.coherent _) hy.2
  | compactL0RangeToL1 fault srcLabel edgeType minSrc maxSrc =>
      obtain ⟨hwf, -, htracks⟩ := withFault_spec h fault
      rw [step, Option.ite_none_left_eq_some] at hy
      exact effect_afterMaintenance (Or.inl rfl)
        (Engine.compactL0TargetToL1_outcome hwf htracks.coherent _) hy.2
  | runFlushTask memgraph =>
      rw [step, Option.ite_none_right_eq_some] at hy
      obtain ⟨hmem, hy⟩ := hy
      obtain ⟨e, hrun, hwf, hflushes⟩ := Engine.runFlushTask_spec h.wf hmem h.fault_eq
      rw [hrun, afterOk, Option.some.injEq] at hy
      subst hy
      exact ⟨hwf, hflushes.fault_eq, .flush memgraph hmem hflushes rfl rfl rfl⟩
  | reopen config =>
      obtain ⟨e, hrun, hwf, htracks, hunflushed, -, hfault⟩ :=
        h.tracks.reopen h.wf h.separated config
      rw [step, hrun] at hy
      simp only [Option.some.injEq] at hy
      subst hy
      exact ⟨hwf, hfault, .reopen config rfl htracks rfl rfl rfl hunflushed⟩

/-- **Step lemma.** Every step keeps the invariant. -/
theorem inv_step (h : x.Inv) {op : Op} (hy : x.step op = some y) : y.Inv := by
  obtain ⟨hwf, hfault, heffect⟩ := step_effect h hy
  cases heffect with
  | write r hwrites hlog hhistory hclient =>
      exact
        { wf := hwf
          separated := hwrites.separated h.separated
          tracks := hhistory ▸ h.tracks.write hwrites
          fault_eq := hfault
          active_empty := fun hne => absurd hclient hne
          running_nil := fun hflushed => absurd (hclient.symm.trans hflushed) nofun }
  | read hsame hlog hhistory hclient hheap hactive hrunning =>
      exact
        { wf := hwf
          separated := hsame.separated h.separated
          tracks := hhistory ▸ h.tracks.sameData hsame
          fault_eq := hfault
          active_empty := by
            rw [hheap, hactive, hclient]
            exact h.active_empty
          running_nil := by
            rw [hrunning, hclient]
            exact h.running_nil }
  | beginFlush hsame hlog hhistory hclient hempty =>
      -- the active memgraph was rotated out, or was empty already
      exact
        { wf := hwf
          separated := hsame.separated h.separated
          tracks := hhistory ▸ h.tracks.sameData hsame
          fault_eq := hfault
          active_empty := fun _ => hempty
          running_nil := fun hflushed => absurd (hclient.symm.trans hflushed) nofun }
  | flush m hm hflushes hlog hhistory hclient =>
      -- a client whose flush has returned left no memgraph running
      have hstores : ∀ r, (x.engine.heap m).Stores r → r ∈ x.engine.unflushed :=
        fun r hr => ⟨m, (h.wf.mem_memgraphs _).mpr (Or.inr hm), hr⟩
      exact
        { wf := hwf
          separated := hflushes.separated h.separated
          tracks := hhistory ▸ h.tracks.flush hstores hflushes
          fault_eq := hfault
          active_empty := by
            rw [hflushes.heap_eq, hflushes.active_eq, hclient]
            exact h.active_empty
          running_nil := fun hflushed => by
            rw [h.running_nil (hclient.symm.trans hflushed)] at hm
            exact absurd hm List.not_mem_nil }
  | compact hcompacts hrunning hlog hhistory hclient =>
      exact
        { wf := hwf
          separated := hcompacts.separated h.separated
          tracks := hhistory ▸ h.tracks.compact hcompacts
          fault_eq := hfault
          active_empty := fun hne => by
            rw [hcompacts.heap_eq, hcompacts.active_eq]
            refine h.active_empty ?_
            rw [hclient.resolve_left hne]
            exact nofun
          running_nil := fun _ => hcompacts.running_eq.trans hrunning }
  | reopen config hop htracks hlog hhistory hclient hunflushed =>
      exact
        { wf := hwf
          separated := ⟨fun id hid _ _ r hr => absurd ⟨id, hid, hr⟩ (hunflushed r),
            fun r hr => absurd hr (hunflushed r), fun r hr => absurd hr (hunflushed r)⟩
          tracks := htracks
          fault_eq := hfault
          active_empty := fun hne => absurd hclient hne
          running_nil := fun hflushed => absurd (hclient.symm.trans hflushed) nofun }

/-- A new store meets the invariant. -/
theorem inv_create {config : LsmGraphConfig} (hx : create config = some x) : x.Inv := by
  obtain ⟨e, hrun, hwf, hrecords, hlive, hunflushed, hmanifestTs, htimestamp, hrunning, hfault⟩ :=
    Engine.openDir_spec config Engine.emptyDir [] nofun
  have hnone : ∀ r, r ∉ fileRecords Engine.emptyDir (Manifest.load []).liveFiles := by
    rintro r ⟨m, hm, -⟩
    exact absurd hm List.not_mem_nil
  rw [create, hrun, Option.some.injEq] at hx
  subst hx
  exact
    { wf := hwf
      separated := ⟨fun id hid _ _ r hr => absurd ⟨id, hid, hr⟩ (hunflushed r),
        fun r hr => absurd hr (hunflushed r), fun r hr => absurd hr (hunflushed r)⟩
      tracks :=
        { records_sub := fun r hr => absurd (hrecords.le hr) (hnone r)
          live_sub := fun r hr => absurd (hlive.le hr) (hnone r)
          ascending := List.Pairwise.nil
          ts_le := nofun
          covers := nofun
          durable := nofun }
      fault_eq := hfault
      active_empty := fun hclient => absurd rfl hclient
      running_nil := nofun }

/-- **Run lemma.** Every state of a run meets the invariant. -/
theorem inv_of_reaches {P : Session → Op → Prop} (h : Reaches step P x y) (hx : x.Inv) : y.Inv :=
  h.invariant hx fun _ _ _ hinv _ hstep => inv_step hinv hstep

end Session

end LsmGraph
