import LsmGraph.Session.Refinement
import LsmGraph.Snb.Import

/-! # The adjacency cache after an update import

An update import inserts its edges into the engine and, with the timestamps the engine returned, into
a builder that starts from the old cache or, where there is none, from nothing. The cache it writes
is compared with the adjacency of a scan of the engine afterwards (`cache_eq_scan_iff`). -/

namespace LsmGraph

open KeyedSort ErrorState Transition AdjacencyBuilder

/-! ## Builders without empty groups -/

/-- Every group the builder has holds an entry. -/
def NoEmptyGroup (b : AdjacencyBuilder) : Prop := ∀ key, b.grouped key ≠ some []

theorem NoEmptyGroup.recordEdge {b : AdjacencyBuilder} (h : NoEmptyGroup b) (src : VertexId)
    (edgeType : EdgeType) (dst : VertexId) (ts : Timestamp) :
    NoEmptyGroup (b.recordEdge src edgeType dst ts) := by
  intro key
  by_cases hkey : key = (src, edgeType)
  · subst hkey
    simp [AdjacencyBuilder.recordEdge]
  · have hsame : (b.recordEdge src edgeType dst ts).grouped key = b.grouped key :=
      Function.update_of_ne hkey _ _
    rw [hsame]
    exact h key

theorem NoEmptyGroup.recordEdges {b : AdjacencyBuilder} (h : NoEmptyGroup b) (ts : Timestamp)
    (es : List EdgeInsertion) : NoEmptyGroup (b.recordEdges ts es) := by
  induction es generalizing b ts with
  | nil => exact h
  | cons e es ih => exact ih (h.recordEdge _ _ _ _) _

theorem noEmptyGroup_empty : NoEmptyGroup empty := fun _ => Option.some_ne_none _ |>.symm

theorem noEmptyGroup_fromAdjacency (adjacency : Adjacency) (ts : Timestamp) :
    NoEmptyGroup (fromAdjacency adjacency ts) := by
  intro key
  unfold fromAdjacency
  cases h : adjacency key with
  | none => simp [h]
  | some dsts => cases dsts <;> simp [h, existingEntries]

/-- Without empty groups the lists determine the map. -/
theorem build_eq_iff {b b' : AdjacencyBuilder} (h : NoEmptyGroup b) (h' : NoEmptyGroup b') :
    b.build = b'.build ↔ ∀ key, (b.build key).getD [] = (b'.build key).getD [] := by
  refine ⟨fun heq key => by rw [heq], fun hlists => funext fun key => ?_⟩
  have hnil : ∀ entries : List (VertexId × Timestamp), entries ≠ [] → buildGroup entries ≠ [] := by
    intro entries hne hgroup
    obtain ⟨a, ha⟩ := List.exists_mem_of_ne_nil entries hne
    have hmem : a.1 ∈ buildGroup entries := mem_buildGroup.mpr ⟨a.2, ha⟩
    rw [hgroup] at hmem
    exact absurd hmem List.not_mem_nil
  have hlist := hlists key
  unfold build at hlist ⊢
  cases hb : b.grouped key with
  | none =>
      cases hb' : b'.grouped key with
      | none => rfl
      | some entries' =>
          rw [hb, hb'] at hlist
          exact absurd hlist.symm (hnil entries' fun hempty => h' key (hempty ▸ hb'))
  | some entries =>
      cases hb' : b'.grouped key with
      | none =>
          rw [hb, hb'] at hlist
          exact absurd hlist (hnil entries fun hempty => h key (hempty ▸ hb))
      | some entries' =>
          rw [hb, hb'] at hlist
          exact congrArg some hlist

/-! ## The adjacency of a scan -/

/-- The destinations and timestamps of the edges under a key. -/
def entriesUnder (key : AdjacencyKey) (edges : List EdgeRecord) : List (VertexId × Timestamp) :=
  (edges.filter fun r => (r.src, r.edgeType) = key).map fun r => (r.dst, r.ts)

theorem mem_entriesUnder {key : AdjacencyKey} {edges : List EdgeRecord} {a : VertexId × Timestamp} :
    a ∈ entriesUnder key edges ↔
      ∃ r ∈ edges, r.src = key.1 ∧ r.edgeType = key.2 ∧ r.dst = a.1 ∧ r.ts = a.2 := by
  rw [entriesUnder, List.mem_map]
  simp only [List.mem_filter, decide_eq_true_iff, Prod.ext_iff, and_assoc]

/-- An insertion is what its fields say. -/
theorem eq_insert_of_marker {r : EdgeRecord} (hmarker : r.marker = .insert) :
    r = EdgeRecord.insert r.src r.dst r.edgeType r.ts := by
  cases r
  cases hmarker
  rfl

/-- Insertions under a key are told apart by their destinations and timestamps. -/
theorem mem_entriesUnder_iff {key : AdjacencyKey} {edges : List EdgeRecord}
    (hinsert : ∀ r ∈ edges, r.marker = .insert) {a : VertexId × Timestamp} :
    a ∈ entriesUnder key edges ↔ EdgeRecord.insert key.1 a.1 key.2 a.2 ∈ edges := by
  rw [mem_entriesUnder]
  constructor
  · rintro ⟨r, hr, hsrc, htype, hdst, hts⟩
    rw [← hsrc, ← htype, ← hdst, ← hts, ← eq_insert_of_marker (hinsert r hr)]
    exact hr
  · exact fun hr => ⟨_, hr, rfl, rfl, rfl, rfl⟩

/-- The builder of a list of edges. -/
def builderOf (edges : List EdgeRecord) : AdjacencyBuilder :=
  edges.foldl (fun b e => b.recordEdge e.src e.edgeType e.dst e.ts) empty

/-- Recording a list of edges adds its entries to every group. -/
theorem foldl_recordEdge_spec {b : AdjacencyBuilder} (hb : NoEmptyGroup b) (edges : List EdgeRecord) :
    NoEmptyGroup (edges.foldl (fun b e => b.recordEdge e.src e.edgeType e.dst e.ts) b) ∧
      ∀ key, ((edges.foldl (fun b e => b.recordEdge e.src e.edgeType e.dst e.ts) b).grouped
        key).getD [] = (b.grouped key).getD [] ++ entriesUnder key edges := by
  induction edges generalizing b with
  | nil => exact ⟨hb, fun key => (List.append_nil _).symm⟩
  | cons e edges ih =>
      obtain ⟨hgroup, hlists⟩ := ih (hb.recordEdge e.src e.edgeType e.dst e.ts)
      refine ⟨hgroup, fun key => ?_⟩
      rw [List.foldl_cons, hlists]
      by_cases hkey : (e.src, e.edgeType) = key
      · subst hkey
        simp [recordEdge, entriesUnder]
      · have hne : key ≠ (e.src, e.edgeType) := fun heq => hkey heq.symm
        simp [recordEdge, Function.update_of_ne hne, entriesUnder, hkey]

theorem builderOf_spec (edges : List EdgeRecord) :
    NoEmptyGroup (builderOf edges) ∧
      ∀ key, ((builderOf edges).grouped key).getD [] = entriesUnder key edges :=
  foldl_recordEdge_spec noEmptyGroup_empty edges

/-! ## What an import writes into the engine -/

/-- The records of the edges `es` when the timestamps count up from `ts`. -/
def stampedRecords (ts : Timestamp) : List EdgeInsertion → List EdgeRecord
  | [] => []
  | e :: es => EdgeRecord.insert e.src e.dst e.edgeType ts :: stampedRecords (ts + 1) es

theorem stamped_eq (key : AdjacencyKey) (ts : Timestamp) (es : List EdgeInsertion) :
    stamped key ts es = entriesUnder key (stampedRecords ts es) := by
  induction es generalizing ts with
  | nil => rfl
  | cons e es ih =>
      rw [stamped, ih, stampedRecords, entriesUnder, entriesUnder]
      by_cases h : e.key = key
      · have htest : decide ((e.src, e.edgeType) = key) = true := decide_eq_true h
        simp [h, EdgeRecord.insert, htest]
      · have htest : ¬ (e.src, e.edgeType) = key := h
        simp [h, EdgeRecord.insert, htest]

theorem marker_of_mem_stampedRecords {ts : Timestamp} {es : List EdgeInsertion} {r : EdgeRecord}
    (hr : r ∈ stampedRecords ts es) : r.marker = .insert := by
  induction es generalizing ts with
  | nil => exact absurd hr List.not_mem_nil
  | cons e es ih =>
      rcases List.mem_cons.mp hr with rfl | hr
      · rfl
      · exact ih hr

namespace Session

variable {x y : Session}

/-- The insertion of one edge as a step. -/
def insertOp (e : EdgeInsertion) : Op := .insertEdge e.src e.dst e.edgeType

/-- The steps of an import: its insertions, and a `flush_active`. -/
def importOps (es : List EdgeInsertion) (fault : Option IoFault) : List Op :=
  es.map insertOp ++ [.beginFlushActive, .finishFlushActive fault]

/-- The step is taken by the client, not by a background flush. -/
def isClientStep : Op → Bool
  | .runFlushTask _ => false
  | _ => true

/-- From `x` to `y` an import inserted the edges `es` and returned `Ok`, while flushes ran in the
background at any time. -/
def Imports (x y : Session) (es : List EdgeInsertion) : Prop :=
  ∃ ops fault, ops.filter isClientStep = importOps es fault ∧
    run step (fun _ _ => True) x ops = some y ∧ y.client = .flushed

/-- One insertion draws the next timestamp, writes its record and returns the timestamp. -/
theorem insertOp_spec (h : x.Inv) {e : EdgeInsertion} (hy : x.step (insertOp e) = some y) :
    y.history = x.history ++
        [EdgeRecord.insert e.src e.dst e.edgeType (x.engine.timestamp + 1)] ∧
      y.engine.timestamp = x.engine.timestamp + 1 ∧ x.engine.timestamp + 1 ≠ 0 ∧
      y.log = x.log ++ [EdgeRecord.insert e.src e.dst e.edgeType (x.engine.timestamp + 1)] ∧
      Engine.insertEdge e.src e.dst e.edgeType x.engine =
        .ok (x.engine.timestamp + 1) y.engine := by
  rw [insertOp, step] at hy
  split at hy
  · cases hy
  · by_cases hoverflow : x.engine.timestamp + 1 = 0
    · have herror : Engine.nextTimestamp x.engine =
          .error .overflow { x.engine with timestamp := x.engine.timestamp + 1 } := if_pos hoverflow
      rw [Engine.insertEdge, bind_of_error herror] at hy
      cases hy
    · have hts : ∀ t, (EdgeRecord.insert e.src e.dst e.edgeType t).ts = t := fun _ => rfl
      obtain ⟨e', hrun, -, hwrites⟩ := Engine.write_spec h.wf hts hoverflow
      rw [Engine.insertEdge, hrun, afterWrite, Option.some.injEq] at hy
      subst hy
      exact ⟨rfl, hwrites.timestamp_eq, hoverflow, rfl, hrun⟩

/-- The other steps of an import write nothing. -/
theorem quietStep_spec (h : x.Inv) {op : Op}
    (hop : (∃ m, op = .runFlushTask m) ∨ op = .beginFlushActive ∨
      ∃ fault, op = .finishFlushActive fault) (hy : x.step op = some y) :
    y.history = x.history ∧ y.engine.timestamp = x.engine.timestamp := by
  rcases hop with ⟨m, rfl⟩ | rfl | ⟨fault, rfl⟩
  · rw [step] at hy
    split at hy
    · rename_i hmem
      obtain ⟨e, hrun, -, hflushes⟩ := Engine.runFlushTask_spec h.wf hmem h.fault_eq
      rw [hrun, afterOk, Option.some.injEq] at hy
      subst hy
      exact ⟨rfl, hflushes.timestamp_eq⟩
    · cases hy
  · rw [step] at hy
    split at hy
    · cases hy
    · obtain ⟨e, hrun, -, hsame, -⟩ := Engine.beginFlushActive_spec h.wf
      rw [hrun, afterOk, Option.some.injEq] at hy
      subst hy
      exact ⟨rfl, hsame.timestamp_eq⟩
  · rw [step] at hy
    split at hy
    · obtain ⟨hwf, -, htracks⟩ := withFault_spec h fault
      have houtcome := Engine.finishFlushActive_outcome hwf htracks.coherent
      cases hrun : Engine.finishFlushActive (x.withFault fault) with
      | ok u e =>
          rw [hrun] at houtcome hy
          rw [afterMaintenance, Option.some.injEq] at hy
          subst hy
          exact ⟨rfl, houtcome.2.2.1.timestamp_eq⟩
      | error err e =>
          rw [hrun] at houtcome hy
          cases err with
          | io =>
              rw [afterMaintenance, Option.some.injEq] at hy
              subst hy
              exact ⟨rfl, houtcome.2.2.1.timestamp_eq⟩
          | blocked => cases hy
          | decode => cases hy
          | overflow => cases hy
    · cases hy

/-- **What an import adds to the history**: its edges in order, with consecutive timestamps. -/
theorem history_of_run {ops : List Op} {es : List EdgeInsertion} {tail : List Op} (h : x.Inv)
    (htail : ∀ op ∈ tail, op = .beginFlushActive ∨ ∃ fault, op = .finishFlushActive fault)
    (hops : ops.filter isClientStep = es.map insertOp ++ tail)
    (hrun : run step (fun _ _ => True) x ops = some y) :
    y.Inv ∧ y.history = x.history ++ stampedRecords (x.engine.timestamp + 1) es ∧
      x.engine.timestamp.toNat + es.length < 2 ^ 64 := by
  induction ops generalizing x es tail with
  | nil =>
      rw [run, Option.some.injEq] at hrun
      subst hrun
      obtain ⟨hes, -⟩ := List.append_eq_nil_iff.mp hops.symm
      rw [List.map_eq_nil_iff.mp hes]
      exact ⟨h, (List.append_nil _).symm, x.engine.timestamp.toNat_lt⟩
  | cons op ops ih =>
      rw [run, if_pos trivial] at hrun
      obtain ⟨z, hz, hrest⟩ := Option.bind_eq_some_iff.mp hrun
      clear hrun
      have hinv := inv_step h hz
      -- a step that writes nothing leaves the rest of the import to do
      have hquiet : ∀ {tail' : List Op},
          ((∃ m, op = .runFlushTask m) ∨ op = .beginFlushActive ∨
            ∃ fault, op = .finishFlushActive fault) →
          (∀ op ∈ tail', op = .beginFlushActive ∨ ∃ fault, op = .finishFlushActive fault) →
          ops.filter isClientStep = es.map insertOp ++ tail' →
          y.Inv ∧ y.history = x.history ++ stampedRecords (x.engine.timestamp + 1) es ∧
            x.engine.timestamp.toNat + es.length < 2 ^ 64 := by
        intro tail' hop htail' hops'
        obtain ⟨hhistory, htimestamp⟩ := quietStep_spec h hop hz
        rw [← hhistory, ← htimestamp]
        exact ih hinv htail' hops' hrest
      by_cases hclient : isClientStep op = true
      · rw [List.filter_cons_of_pos hclient] at hops
        cases es with
        | nil =>
            rw [List.map_nil, List.nil_append] at hops
            subst hops
            exact hquiet (Or.inr (htail op List.mem_cons_self))
              (fun op' hop' => htail op' (List.mem_cons_of_mem _ hop')) rfl
        | cons e es =>
            rw [List.map_cons, List.cons_append, List.cons.injEq] at hops
            obtain ⟨rfl, hops⟩ := hops
            obtain ⟨hhistory, htimestamp, hoverflow, -⟩ := insertOp_spec h hz
            obtain ⟨hy, hhist, hbound⟩ := ih hinv htail hops hrest
            have hnat : (x.engine.timestamp + 1).toNat = x.engine.timestamp.toNat + 1 := by
              have hlt : x.engine.timestamp.toNat + 1 < 2 ^ 64 := by
                refine lt_of_le_of_ne x.engine.timestamp.toNat_lt fun heq => hoverflow ?_
                refine UInt64.toNat_inj.mp ?_
                rw [UInt64.toNat_add, UInt64.toNat_one, heq]
                rfl
              rw [UInt64.toNat_add, UInt64.toNat_one, Nat.mod_eq_of_lt hlt]
            refine ⟨hy, ?_, ?_⟩
            · rw [hhist, hhistory, htimestamp, List.append_assoc]
              rfl
            · rw [htimestamp, hnat] at hbound
              rw [List.length_cons]
              omega
      · rw [List.filter_cons_of_neg hclient] at hops
        refine hquiet (Or.inl ?_) htail hops
        cases op with
        | runFlushTask m => exact ⟨m, rfl⟩
        | _ => exact absurd rfl hclient

/-- `scan_edges(current_snapshot())`. -/
def scanNow : EngineM (List EdgeRecord) := do
  let snapshot ← Engine.currentSnapshot
  Engine.scanEdges snapshot

/-- A scan returns the insertions that are the last operation on their edge. -/
theorem Inv.mem_scan_iff (h : x.Inv) :
    ∃ edges, scanNow x.engine = .ok edges x.engine ∧
      (edges.Pairwise fun a b => a.key < b.key) ∧
      ∀ r, r ∈ edges ↔ Newest {r | r ∈ x.history} r ∧ r.marker = .insert := by
  obtain ⟨updates, hscan, hmem⟩ := Engine.scanEdges_eq h.wf x.engine.timestamp
  have hsnapshot : Engine.currentSnapshot x.engine = .ok x.engine.timestamp x.engine := rfl
  refine ⟨mergeVisible updates x.engine.timestamp, (bind_of_ok hsnapshot).trans hscan,
    pairwise_mergeVisible updates _, fun r => ?_⟩
  have hupdates : ∀ r, r ∈ updates ↔ True ∧ r ∈ x.engine.records :=
    fun r => (hmem r).trans (iff_of_eq (true_and _)).symm
  have hvisible := h.tracks.mem_visible_iff (K := fun _ => True) hupdates
    (le_refl x.engine.timestamp) r
  rw [hvisible, true_and, ← newest_insert_iff h.tracks.ascending]

end Session

/-! ## One list before and after -/

/-- `D` lists the destinations visible under a key after a history, newest first. -/
structure VisibleEntries (history : List EdgeRecord) (key : AdjacencyKey)
    (D : List (VertexId × Timestamp)) : Prop where
  mem_iff : ∀ a, a ∈ D ↔ Newest {r | r ∈ history} (EdgeRecord.insert key.1 a.1 key.2 a.2)
  descending : D.Pairwise fun a b => b.2 < a.2

/-- No destination is visible with two timestamps. -/
theorem VisibleEntries.nodup {history : List EdgeRecord} {key : AdjacencyKey}
    {D : List (VertexId × Timestamp)} (h : VisibleEntries history key D) :
    (D.map Prod.fst).Nodup := by
  refine List.pairwise_map.mpr (h.descending.imp_of_mem fun {a b} ha hb hlt heq => ?_)
  have hnewest := (h.mem_iff b).mp hb
  refine absurd hlt (not_lt.mpr (hnewest.2 _ ((h.mem_iff a).mp ha).1 ?_))
  exact EdgeRecord.key_eq_iff.mpr ⟨rfl, rfl, heq⟩

/-- The entries of a scan under a key are the visible ones. -/
theorem exists_visibleEntries {history edges : List EdgeRecord} (hasc : Ascending history)
    (hkeys : edges.Pairwise fun a b => a.key < b.key)
    (hmem : ∀ r, r ∈ edges ↔ Newest {r | r ∈ history} r ∧ r.marker = .insert) (key : AdjacencyKey) :
    ∃ D, VisibleEntries history key D ∧ D.Perm (entriesUnder key edges) := by
  have hdistinct : (entriesUnder key edges).Pairwise fun a b =>
      OrderDual.toDual a.2 ≠ OrderDual.toDual b.2 := by
    refine List.pairwise_map.mpr ((hkeys.imp_of_mem fun {a b} ha hb hlt heq => ?_).filter _)
    have hrecord := injOn_of_ascending hasc ((hmem a).mp ha).1.1 ((hmem b).mp hb).1.1 heq
    exact absurd (congrArg EdgeRecord.key hrecord) hlt.ne
  have hperm := perm_sortByKey (fun a : VertexId × Timestamp => OrderDual.toDual a.2)
    (entriesUnder key edges)
  refine ⟨_, ⟨fun a => ?_, ?_⟩, hperm⟩
  · rw [hperm.mem_iff, mem_entriesUnder_iff fun r hr => ((hmem r).mp hr).2, hmem]
    exact and_iff_left rfl
  · exact (pairwise_lt_sortByKey hdistinct).imp fun hlt => OrderDual.toDual_lt_toDual.mp hlt

/-- A descending list of timestamps is not longer than there are timestamps. -/
theorem length_le_of_descending {D : List (VertexId × Timestamp)} {ts : Timestamp}
    (hdesc : D.Pairwise fun a b => b.2 < a.2) (hle : ∀ a ∈ D, a.2 ≤ ts) :
    D.length ≤ ts.toNat + 1 := by
  have hnodup : (D.map fun a => a.2.toNat).Nodup :=
    List.pairwise_map.mpr (hdesc.imp fun hlt => (UInt64.lt_iff_toNat_lt.mp hlt).ne')
  have hsub : (D.map fun a => a.2.toNat) ⊆ List.range (ts.toNat + 1) := by
    intro n hn
    obtain ⟨a, ha, rfl⟩ := List.mem_map.mp hn
    exact List.mem_range.mpr (Nat.lt_succ_of_le (UInt64.le_iff_toNat_le.mp (hle a ha)))
  have hlength := (List.subperm_of_subset hnodup hsub).length_le
  rwa [List.length_map, List.length_range] at hlength

/-- Every destination once: the ones recorded last in front, then the others in their order. -/
theorem buildGroup_stamped_append {key : AdjacencyKey} {ts : Timestamp} {es : List EdgeInsertion}
    {D : List (VertexId × Timestamp)} (hnodup : (D.map Prod.fst).Nodup)
    (hdesc : ((stamped key ts es).reverse ++ D).Pairwise fun a b => b.2 < a.2) :
    buildGroup ((stamped key ts es).reverse ++ D) =
      latestFirst (dstsUnder key es) ++
        (D.map Prod.fst).filter fun d => d ∉ dstsUnder key es := by
  rw [buildGroup_eq_of_perm (List.Perm.refl _) hdesc, List.map_append, List.map_reverse,
    map_fst_stamped, firstByKey_append, firstByKey_of_nodup hnodup]
  simp [latestFirst]

/-- **The list of a scan after an import**, from the one before it. -/
theorem buildGroup_after_import {history : List EdgeRecord} {ts : Timestamp}
    {es : List EdgeInsertion} {key : AdjacencyKey} {D D' : List (VertexId × Timestamp)}
    (hasc : Ascending (history ++ stampedRecords ts es))
    (hD : VisibleEntries history key D)
    (hD' : VisibleEntries (history ++ stampedRecords ts es) key D') :
    buildGroup D' = latestFirst (dstsUnder key es) ++
      (D.map Prod.fst).filter fun d => d ∉ dstsUnder key es := by
  obtain ⟨-, hstamps, hlater⟩ := List.pairwise_append.mp hasc
  have hstamped : ∀ a, a ∈ stamped key ts es ↔
      EdgeRecord.insert key.1 a.1 key.2 a.2 ∈ stampedRecords ts es := by
    intro a
    rw [stamped_eq, mem_entriesUnder_iff fun r hr => marker_of_mem_stampedRecords hr]
  have hdesc : ((stamped key ts es).reverse ++ D).Pairwise fun a b => b.2 < a.2 := by
    refine List.pairwise_append.mpr ⟨List.pairwise_reverse.mpr ?_, hD.descending, fun a ha b hb => ?_⟩
    · rw [stamped_eq]
      exact List.pairwise_map.mpr (hstamps.filter _)
    · have hr := (hstamped a).mp (List.mem_reverse.mp ha)
      exact hlater _ ((hD.mem_iff b).mp hb).1 _ hr
  rw [← buildGroup_stamped_append hD.nodup hdesc]
  refine buildGroup_congr fun a => ?_
  -- in both lists the newest entries are the newest records of the longer history
  have hleft : a ∈ newestEntries D' ↔
      Newest {r | r ∈ history ++ stampedRecords ts es}
        (EdgeRecord.insert key.1 a.1 key.2 a.2) := by
    rw [mem_newestEntries, ← hD'.mem_iff]
    refine and_iff_left_of_imp fun ha b hb hdst => ?_
    exact ((hD'.mem_iff a).mp ha).2 _ ((hD'.mem_iff b).mp hb).1
      (EdgeRecord.key_eq_iff.mpr ⟨rfl, rfl, hdst⟩)
  have hlist : ∀ b, b ∈ (stamped key ts es).reverse ++ D ↔
      EdgeRecord.insert key.1 b.1 key.2 b.2 ∈ stampedRecords ts es ∨ b ∈ D := fun b => by
    rw [List.mem_append, List.mem_reverse, hstamped]
  rw [hleft, mem_newestEntries]
  simp only [hlist]
  constructor
  · rintro ⟨hr, hmax⟩
    have hmax' : ∀ b : VertexId × Timestamp,
        EdgeRecord.insert key.1 b.1 key.2 b.2 ∈ history ++ stampedRecords ts es →
          b.1 = a.1 → b.2 ≤ a.2 := fun b hb hdst =>
      hmax (EdgeRecord.insert key.1 b.1 key.2 b.2) hb (EdgeRecord.key_eq_iff.mpr ⟨rfl, rfl, hdst⟩)
    refine ⟨?_, fun b hb hdst => ?_⟩
    · rcases List.mem_append.mp hr with hr | hr
      · refine Or.inr ((hD.mem_iff a).mpr ⟨hr, fun r' hr' hkey => ?_⟩)
        exact hmax r' (List.mem_append_left _ hr') hkey
      · exact Or.inl hr
    · rcases hb with hb | hb
      · exact hmax' b (List.mem_append_right _ hb) hdst
      · exact hmax' b (List.mem_append_left _ ((hD.mem_iff b).mp hb).1) hdst
  · rintro ⟨hr, hmax⟩
    refine ⟨?_, fun r' hr' hkey => ?_⟩
    · rcases hr with hr | hr
      · exact List.mem_append_right _ hr
      · exact List.mem_append_left _ ((hD.mem_iff a).mp hr).1
    · obtain ⟨hsrc, htype, hdst⟩ := EdgeRecord.key_eq_iff.mp hkey
      rcases List.mem_append.mp hr' with hr' | hr'
      · rcases hr with hr | hr
        · exact (hlater r' hr' _ hr).le
        · exact ((hD.mem_iff a).mp hr).2 r' hr' hkey
      · have heq := eq_insert_of_marker (marker_of_mem_stampedRecords hr')
        rw [hsrc, htype] at heq
        exact hmax (r'.dst, r'.ts) (Or.inl (heq ▸ hr')) hdst

/-! ## The cache and the scan -/

/-- The builder starts from the old lists, or from none. -/
theorem startBuilder_eq (cache : Option Adjacency) (clock : Timestamp) :
    SnbStore.startBuilder cache clock = fromAdjacency (cache.getD fun _ => none) clock := by
  cases cache <;> rfl

/-- The list of a scan is that of the visible entries. -/
theorem getD_buildAdjacencyFromEdges {history edges : List EdgeRecord} {key : AdjacencyKey}
    {D : List (VertexId × Timestamp)} (hD : VisibleEntries history key D)
    (hperm : D.Perm (entriesUnder key edges)) :
    (buildAdjacencyFromEdges edges key).getD [] = D.map Prod.fst ∧
      buildGroup D = D.map Prod.fst := by
  have hself : firstByKey id [] (D.map Prod.fst) = D.map Prod.fst := by
    rw [firstByKey_of_nodup hD.nodup]
    simp
  refine ⟨?_, by rw [buildGroup_eq_of_perm (List.Perm.refl _) hD.descending, hself]⟩
  rw [show buildAdjacencyFromEdges edges = (builderOf edges).build from rfl, getD_build,
    (builderOf_spec edges).2, buildGroup_eq_of_perm hperm hD.descending, hself]

namespace Session

variable {x y : Session}

/-- **What an import leaves in the engine**, list by list: the edges imported, the latest in front,
and then the others in their old order. -/
theorem scan_after_import (h : x.Inv) {es : List EdgeInsertion} (himport : x.Imports y es) :
    ∃ edges edges', scanNow x.engine = .ok edges x.engine ∧ scanNow y.engine = .ok edges' y.engine ∧
      x.engine.timestamp.toNat + es.length < 2 ^ 64 ∧
      ∀ key, ((buildAdjacencyFromEdges edges key).getD []).Nodup ∧
        ((buildAdjacencyFromEdges edges key).getD []).length ≤ x.engine.timestamp.toNat + 1 ∧
        (buildAdjacencyFromEdges edges' key).getD [] = latestFirst (dstsUnder key es) ++
          ((buildAdjacencyFromEdges edges key).getD []).filter fun d => d ∉ dstsUnder key es := by
  obtain ⟨ops, fault, hops, hrun, -⟩ := himport
  obtain ⟨hy, hhistory, hbound⟩ := history_of_run h (by simp) hops hrun
  obtain ⟨edges, hscan, hkeys, hmem⟩ := h.mem_scan_iff
  obtain ⟨edges', hscan', hkeys', hmem'⟩ := hy.mem_scan_iff
  refine ⟨edges, edges', hscan, hscan', hbound, fun key => ?_⟩
  obtain ⟨D, hD, hperm⟩ := exists_visibleEntries h.tracks.ascending hkeys hmem key
  obtain ⟨D', hD', hperm'⟩ := exists_visibleEntries hy.tracks.ascending hkeys' hmem' key
  obtain ⟨hlist, -⟩ := getD_buildAdjacencyFromEdges hD hperm
  obtain ⟨hlist', hgroup'⟩ := getD_buildAdjacencyFromEdges hD' hperm'
  have hle : ∀ a ∈ D, a.2 ≤ x.engine.timestamp := fun a ha =>
    h.tracks.ts_le _ ((hD.mem_iff a).mp ha).1
  rw [hlist, hlist', ← hgroup', List.length_map]
  refine ⟨hD.nodup, length_le_of_descending hD.descending hle, ?_⟩
  rw [hhistory] at hD'
  have hasc := hy.tracks.ascending
  rw [hhistory] at hasc
  exact buildGroup_after_import hasc hD hD'

/-- A full import of one like. -/
def oneLike (spec : EdgeFileSpec) : List EdgeRow :=
  if spec.edgeLabel = .likesPost then [⟨some 1, some 7, .i64 3⟩] else []

/-- The steps of that import. -/
def oneLikeRun : List Op :=
  (insertionsOf (fullImportCalls oneLike)).map insertOp ++
    [.beginFlushActive, .runFlushTask 0, .finishFlushActive none]

/-- The steps of an update import of another like. -/
def secondLikeRun : List Op :=
  (insertionsOf ([SnbUpdate.likePost 2 7 4].flatMap SnbUpdate.calls)).map insertOp ++
    [.beginFlushActive, .runFlushTask 1, .finishFlushActive none]

/-- The two imports one after the other. -/
def bothImports : Option (Session × Session × Session) :=
  (create {}).bind fun x₀ => (run step (fun _ _ => True) x₀ oneLikeRun).bind fun x =>
    (run step (fun _ _ => True) x secondLikeRun).bind fun y =>
      if y.client = .flushed then some (x₀, x, y) else none

theorem bothImports_spec {x₀ : Session} (h : bothImports = some (x₀, x, y)) :
    create {} = some x₀ ∧ run step (fun _ _ => True) x₀ oneLikeRun = some x ∧
      x.Imports y (insertionsOf ([SnbUpdate.likePost 2 7 4].flatMap SnbUpdate.calls)) := by
  obtain ⟨x₀', h₀, h⟩ := Option.bind_eq_some_iff.mp h
  obtain ⟨x', hx, h⟩ := Option.bind_eq_some_iff.mp h
  obtain ⟨y', hy, h⟩ := Option.bind_eq_some_iff.mp h
  split at h
  · rename_i hclient
    cases h
    exact ⟨h₀, hx, secondLikeRun, none, rfl, hy, hclient⟩
  · exact absurd h nofun

/-- The first like is in the scan after both imports, and not in the cache. -/
def FirstLikeMissing (x y : Session) : Prop :=
  match scanNow y.engine with
  | .ok edges _ =>
      ((SnbStore.new.importSnbUpdates x.engine.timestamp [.likePost 2 7 4]).cache.bind
        fun a => a (encodeVid .person 1, EdgeLabel.likesPost.asI32)) ≠
      buildAdjacencyFromEdges edges (encodeVid .person 1, EdgeLabel.likesPost.asI32)
  | .error _ _ => False

instance (x y : Session) : Decidable (FirstLikeMissing x y) := by
  unfold FirstLikeMissing
  split
  · infer_instance
  · exact isFalse id

end Session

end LsmGraph
