import LsmGraph.Loader.Topology
import LsmGraph.Session.Refinement
import LsmGraph.Snb.Vertices

/-! # What the engine returns after an import

After an import that returned `Ok`, a lookup lists the edges that the files yield, in whatever state the
store is brought to without writing to it: by background flushes, by compactions that I/O faults stop
anywhere, by crashes (`topology_lookup`). `validate_person_knows` compares the lookups of one edge type
with the file. It accepts iff they agree at the vertices it gets to (`validatePersonKnows_iff`), so it
accepts every store that was filled from the same file (`validate_after_import`). -/

namespace LsmGraph

open ErrorState Transition

/-! ## A store that is not written to -/

namespace Session

variable {x y : Session}

/-- The step writes no edge. -/
def Quiet : Op → Prop
  | .insertEdge _ _ _ => False
  | .deleteEdge _ _ _ => False
  | _ => True

instance : DecidablePred Quiet := fun op =>
  match op with
  | .insertEdge _ _ _ | .deleteEdge _ _ _ => isFalse id
  | .getNeighbors _ _ _ | .beginFlushActive | .finishFlushActive _ | .compactL0ToL1 _
  | .compactL0PartitionToL1 _ _ _ | .compactL0RangeToL1 _ _ _ _ _ | .runFlushTask _
  | .reopen _ => isTrue trivial

theorem log_of_afterMaintenance {done : Client} {α : Type}
    {result : EStateM.Result EngineError Engine α} (hy : x.afterMaintenance done result = some y) :
    y.log = x.log := by
  cases result with
  | ok a e =>
      rw [afterMaintenance, Option.some.injEq] at hy
      exact hy ▸ rfl
  | error err e =>
      cases err with
      | io =>
          rw [afterMaintenance, Option.some.injEq] at hy
          exact hy ▸ rfl
      | blocked => cases hy
      | decode => cases hy
      | overflow => cases hy

theorem log_of_afterOk {done : Client} {α : Type} {result : EStateM.Result EngineError Engine α}
    (hy : x.afterOk done result = some y) : y.log = x.log := by
  cases result with
  | ok a e =>
      rw [afterOk, Option.some.injEq] at hy
      exact hy ▸ rfl
  | error err e => cases hy

/-- A quiet step carries out no operation. -/
theorem log_of_quiet {op : Op} (hop : Quiet op) (hy : x.step op = some y) : y.log = x.log := by
  cases op with
  | insertEdge src dst edgeType => exact hop.elim
  | deleteEdge src dst edgeType => exact hop.elim
  | getNeighbors src edgeType snapshot => exact log_of_afterOk hy
  | beginFlushActive =>
      rw [step, Option.ite_none_left_eq_some] at hy
      exact log_of_afterOk hy.2
  | finishFlushActive fault =>
      rw [step, Option.ite_none_right_eq_some] at hy
      exact log_of_afterMaintenance hy.2
  | compactL0ToL1 fault =>
      rw [step, Option.ite_none_left_eq_some] at hy
      exact log_of_afterMaintenance hy.2
  | compactL0PartitionToL1 fault srcLabel edgeType =>
      rw [step, Option.ite_none_left_eq_some] at hy
      exact log_of_afterMaintenance hy.2
  | compactL0RangeToL1 fault srcLabel edgeType minSrc maxSrc =>
      rw [step, Option.ite_none_left_eq_some] at hy
      exact log_of_afterMaintenance hy.2
  | runFlushTask memgraph =>
      rw [step, Option.ite_none_right_eq_some] at hy
      exact log_of_afterOk hy.2
  | reopen config =>
      rw [step] at hy
      split at hy
      · rw [Option.some.injEq] at hy
        exact hy ▸ rfl
      · cases hy

/-- All operations of the history are in files. -/
def AllFlushed (x : Session) : Prop := ∀ r, r ∉ x.engine.unflushed

/-- **A quiet step** takes nothing from a history that is in files, and leaves it there. -/
theorem history_of_quiet (h : x.Inv) (hflushed : x.AllFlushed) {op : Op} (hop : Quiet op)
    (hy : x.step op = some y) : y.history = x.history ∧ y.AllFlushed := by
  have hlogs := log_of_quiet hop hy
  obtain ⟨-, -, heffect⟩ := step_effect h hy
  cases heffect with
  | write r hwrites hlog hhistory hclient =>
      rw [hlogs] at hlog
      exact absurd hlog (by simp)
  | read hsame hlog hhistory hclient hheap hactive hrunning =>
      exact ⟨hhistory, fun r hr => hflushed r (hsame.unflushed_eq.le hr)⟩
  | beginFlush hsame hlog hhistory hclient hempty =>
      exact ⟨hhistory, fun r hr => hflushed r (hsame.unflushed_eq.le hr)⟩
  | flush m hm hflushes hlog hhistory hclient =>
      exact ⟨hhistory, fun r hr => hflushed r (hflushes.unflushed_sub hr)⟩
  | compact hcompacts hrunning hlog hhistory hclient =>
      exact ⟨hhistory, fun r hr => hflushed r (hcompacts.unflushed_eq.le hr)⟩
  | reopen config hreopen htracks hlog hhistory hclient hunflushed =>
      refine ⟨?_, hunflushed⟩
      rw [hhistory, Engine.flushedHistory, List.filter_eq_self]
      intro r hr
      rw [decide_eq_true_iff, Engine.mem_unflushedEdges]
      exact hflushed r

/-- A run of quiet steps keeps the history. -/
theorem history_of_quietRun (h : x.Inv) (hflushed : x.AllFlushed)
    (hrun : Reaches step (fun _ op => Quiet op) x y) : y.Inv ∧ y.history = x.history := by
  have hall : y.Inv ∧ y.history = x.history ∧ y.AllFlushed := by
    refine hrun.invariant (I := fun z => z.Inv ∧ z.history = x.history ∧ z.AllFlushed)
      ⟨h, rfl, hflushed⟩ fun z op z' hz hop hstep => ?_
    obtain ⟨hhistory, hflushed'⟩ := history_of_quiet hz.1 hz.2.2 hop hstep
    exact ⟨inv_step hz.1 hstep, hhistory.trans hz.2.1, hflushed'⟩
  exact ⟨hall.1, hall.2.1⟩

/-! ## A store that was filled by an import -/

/-- An edge is present after nothing but insertions iff it was inserted. -/
theorem edgeMap_stampedRecords (ts : Timestamp) (es : List EdgeInsertion) (k : EdgeKey) :
    edgeMap (stampedRecords ts es) k ≠ none ↔
      ∃ e ∈ es, (toLex (e.src, toLex (e.edgeType, e.dst)) : EdgeKey) = k := by
  have hkeys : ∀ ts, (∃ r ∈ stampedRecords ts es, r.key = k) ↔
      ∃ e ∈ es, (toLex (e.src, toLex (e.edgeType, e.dst)) : EdgeKey) = k := by
    induction es with
    | nil => simp [stampedRecords]
    | cons e es ih =>
        intro ts
        rw [stampedRecords, List.exists_mem_cons_iff, ih, List.exists_mem_cons_iff]
        rfl
  rw [← hkeys ts]
  constructor
  · intro hne
    obtain ⟨t, ht⟩ := Option.ne_none_iff_exists'.mp hne
    obtain ⟨r, hlast, -⟩ := edgeMap_eq_some_iff.mp ht
    by_contra hnone
    rw [lastOp_eq_none.mpr fun r hr heq => hnone ⟨r, hr, heq⟩] at hlast
    cases hlast
  · rintro ⟨r, hr, hkey⟩
    obtain ⟨r', hlast⟩ : ∃ r', lastOp (stampedRecords ts es) k = some r' := by
      refine Option.ne_none_iff_exists'.mp fun hnone => ?_
      exact lastOp_eq_none.mp hnone r hr hkey
    have hmem : r' ∈ stampedRecords ts es := by
      rw [lastOp] at hlast
      exact (List.mem_filter.mp (List.mem_of_getLast? hlast)).1
    exact Option.ne_none_iff_exists'.mpr
      ⟨r'.ts, edgeMap_eq_some_iff.mpr ⟨r', hlast, marker_of_mem_stampedRecords hmem, rfl⟩⟩

/-- **After an import into a new store** and any quiet steps, the edges present are the ones that were
inserted. -/
theorem edgeMap_after_import {config : LsmGraphConfig} {x₀ : Session} {es : List EdgeInsertion}
    (hcreate : create config = some x₀) (himport : x₀.Imports x es)
    (hquiet : Reaches step (fun _ op => Quiet op) x y) :
    y.Inv ∧ ∀ k, edgeMap y.history k ≠ none ↔
      ∃ e ∈ es, (toLex (e.src, toLex (e.edgeType, e.dst)) : EdgeKey) = k := by
  obtain ⟨ops, fault, hops, hrun, hclient⟩ := himport
  have hnew : x₀.history = [] := by
    rw [create] at hcreate
    split at hcreate
    · rw [← Option.some.inj hcreate]
    · cases hcreate
  obtain ⟨hx, hhistory, -⟩ := history_of_run (inv_create hcreate) (by simp) hops hrun
  obtain ⟨hy, hsame⟩ := history_of_quietRun hx (unflushed_of_flushed hx hclient) hquiet
  rw [hnew, List.nil_append] at hhistory
  refine ⟨hy, fun k => ?_⟩
  rw [hsame, hhistory]
  exact edgeMap_stampedRecords _ es k

end Session

/-! ## The validator -/

/-- The hash map of sets that `load_person_knows_adjacency` builds, with its keys in the order of
insertion. -/
structure KnowsAdjacency where
  keys : List VertexId
  neighbors : VertexId → Finset VertexId

namespace KnowsAdjacency

def empty : KnowsAdjacency where
  keys := []
  neighbors _ := ∅

/-- `map.entry(a).or_default().insert(b)`. -/
def insert (m : KnowsAdjacency) (a b : VertexId) : KnowsAdjacency where
  keys := if a ∈ m.keys then m.keys else m.keys ++ [a]
  neighbors := Function.update m.neighbors a (Insert.insert b (m.neighbors a))

theorem mem_neighbors_insert {m : KnowsAdjacency} {a b src dst : VertexId} :
    dst ∈ (m.insert a b).neighbors src ↔ (src = a ∧ dst = b) ∨ dst ∈ m.neighbors src := by
  rw [insert]
  dsimp only
  by_cases hsrc : src = a
  · subst hsrc
    rw [Function.update_self, Finset.mem_insert]
    simp only [true_and]
  · rw [Function.update_of_ne hsrc]
    simp only [hsrc, false_and, false_or]

/-- One record of the file. -/
def addRecord (m : KnowsAdjacency) (record : Except Base.BuildError (List String)) :
    Except ReadFailure KnowsAdjacency :=
  match record with
  | .error _ => .error .error
  | .ok record => do
      let a ← column record 0 >>= parseVertexId
      let b ← column record 1 >>= parseVertexId
      .ok ((m.insert a b).insert b a)

end KnowsAdjacency

def loadPersonKnowsAdjacency (root : String → Option Base.CsvFile) :
    Except ReadFailure KnowsAdjacency :=
  match root "dynamic/person_knows_person_0_0.csv" with
  | none => .error .error
  | some file => file.records.foldlM KnowsAdjacency.addRecord .empty

structure ValidateStats where
  checkedVertices : Nat
  expectedDirectedEdges : Nat
  actualDirectedEdges : Nat
  deriving DecidableEq, Repr

/-- What the error of `validate_person_knows` reports; its message has the sizes of the two sets and
some members of their differences. -/
structure KnowsMismatch where
  src : VertexId
  expected : Finset VertexId
  actual : Finset VertexId

/-- The neighbours of type `Knows`, as the validator reads them. -/
def knowsOf (src : VertexId) (snapshot : SnapshotId) : EngineM (Finset VertexId) := do
  let edges ← Engine.getNeighbors src snapshot
  pure ((edges.filter fun e => e.edgeType = EdgeLabel.knows.asI32).map EdgeRecord.dst).toFinset

/-- The loop of `validate_person_knows`. -/
def validateLoop (expected : KnowsAdjacency) (snapshot : SnapshotId) (maxVertices : Nat) :
    ValidateStats → List VertexId → EngineM (Except KnowsMismatch ValidateStats)
  | stats, [] => pure (.ok stats)
  | stats, src :: rest =>
      if maxVertices ≤ stats.checkedVertices then pure (.ok stats)
      else
        knowsOf src snapshot >>= fun actual =>
          if actual ≠ expected.neighbors src then pure (.error ⟨src, expected.neighbors src, actual⟩)
          else validateLoop expected snapshot maxVertices
            { checkedVertices := stats.checkedVertices + 1
              expectedDirectedEdges := stats.expectedDirectedEdges + (expected.neighbors src).card
              actualDirectedEdges := stats.actualDirectedEdges + actual.card } rest

/-- `validate_person_knows`, when the file has been read. -/
def validatePersonKnows (o : IterationOrder) (expected : KnowsAdjacency) (maxVertices : Nat) :
    EngineM (Except KnowsMismatch ValidateStats) := do
  let snapshot ← Engine.currentSnapshot
  validateLoop expected snapshot maxVertices ⟨0, 0, 0⟩ (o.order expected.keys)

/-- The neighbours of a vertex in the file are those in the store. -/
def KnowsAgree (expected : KnowsAdjacency) (m : EdgeMap) (src : VertexId) : Prop :=
  ∀ dst, dst ∈ expected.neighbors src ↔
    m (toLex (src, toLex (EdgeLabel.knows.asI32, dst))) ≠ none

/-- What the validator returns after it has checked `srcs`. -/
def checkedStats (expected : KnowsAdjacency) (srcs : List VertexId) : ValidateStats where
  checkedVertices := srcs.length
  expectedDirectedEdges := (srcs.map fun src => (expected.neighbors src).card).sum
  actualDirectedEdges := (srcs.map fun src => (expected.neighbors src).card).sum

namespace Session

variable {x y : Session}

/-- A lookup of the validator, and the session it leaves. -/
theorem Inv.knowsOf_eq (h : x.Inv) (src : VertexId) :
    ∃ actual e, knowsOf src x.engine.timestamp x.engine = .ok actual e ∧
      e.timestamp = x.engine.timestamp ∧ ({ x with engine := e } : Session).Inv ∧
      ∀ dst, dst ∈ actual ↔
        edgeMap x.history (toLex (src, toLex (EdgeLabel.knows.asI32, dst))) ≠ none := by
  obtain ⟨edges, e, hrun, -, hmem⟩ := h.mem_lookup_iff src none
  have hstep : x.step (.getNeighbors src none x.engine.timestamp) = some { x with engine := e } := by
    rw [step, hrun, afterOk]
  obtain ⟨updates, cache, hcached, -⟩ :=
    Engine.getNeighborsTypedInternal_eq h.wf src none x.engine.timestamp
  have htimestamp : e.timestamp = x.engine.timestamp := by
    rw [hrun, EStateM.Result.ok.injEq] at hcached
    rw [hcached.2]
  refine ⟨_, e, bind_of_ok hrun, htimestamp, inv_step h hstep, fun dst => ?_⟩
  rw [List.mem_toFinset, List.mem_map]
  constructor
  · rintro ⟨r, hr, rfl⟩
    obtain ⟨hr, htype⟩ := List.mem_filter.mp hr
    obtain ⟨⟨rfl, -⟩, -, hts⟩ := (hmem r).mp hr
    rw [← of_decide_eq_true htype]
    exact Option.ne_none_iff_exists'.mpr ⟨r.ts, hts⟩
  · intro hne
    obtain ⟨ts, hts⟩ := Option.ne_none_iff_exists'.mp hne
    refine ⟨EdgeRecord.insert src dst EdgeLabel.knows.asI32 ts, List.mem_filter.mpr ⟨?_, ?_⟩, rfl⟩
    · exact (hmem _).mpr ⟨⟨rfl, fun _ h => absurd h (Option.not_mem_none _)⟩, rfl, hts⟩
    · exact decide_eq_true rfl

/-- **The loop of the validator**: it checks vertices until the limit is reached or one disagrees. -/
theorem Inv.validateLoop_spec (h : x.Inv) (expected : KnowsAdjacency) (maxVertices : Nat)
    {before : List VertexId} (srcs : List VertexId) (hbefore : before.length ≤ maxVertices) :
    ∃ result e, validateLoop expected x.engine.timestamp maxVertices (checkedStats expected before)
        srcs x.engine = .ok result e ∧
      let checked := srcs.take (maxVertices - before.length)
      ((∀ src ∈ checked, KnowsAgree expected (edgeMap x.history) src) →
        result = .ok (checkedStats expected (before ++ checked))) ∧
      ((∃ stats, result = .ok stats) → ∀ src ∈ checked, KnowsAgree expected (edgeMap x.history) src) := by
  induction srcs generalizing x before with
  | nil =>
      refine ⟨_, _, rfl, fun _ => ?_, fun _ => by simp⟩
      rw [List.take_nil, List.append_nil]
  | cons src srcs ih =>
      rw [validateLoop]
      by_cases hfull : maxVertices ≤ before.length
      · have hzero : maxVertices - before.length = 0 := Nat.sub_eq_zero_of_le hfull
        have hcond : maxVertices ≤ (checkedStats expected before).checkedVertices := hfull
        rw [if_pos hcond]
        refine ⟨_, _, rfl, fun _ => ?_, fun _ => ?_⟩
        · rw [hzero, List.take_zero, List.append_nil]
        · rw [hzero, List.take_zero]
          exact fun src hsrc => absurd hsrc List.not_mem_nil
      · have hcond : ¬ maxVertices ≤ (checkedStats expected before).checkedVertices := hfull
        obtain ⟨n, hn⟩ : ∃ n, maxVertices - before.length = n + 1 :=
          Nat.exists_eq_succ_of_ne_zero (by omega)
        rw [if_neg hcond]
        obtain ⟨actual, e, hrun, htimestamp, hinv, hactual⟩ := h.knowsOf_eq src
        rw [bind_of_ok hrun, hn, List.take_succ_cons]
        have hagree : actual = expected.neighbors src ↔
            KnowsAgree expected (edgeMap x.history) src := by
          rw [Finset.ext_iff, KnowsAgree]
          exact forall_congr' fun dst => (iff_congr (hactual dst) Iff.rfl).trans Iff.comm
        by_cases hsame : actual = expected.neighbors src
        · rw [if_neg (not_not.mpr hsame)]
          have hstats : (⟨(checkedStats expected before).checkedVertices + 1,
              (checkedStats expected before).expectedDirectedEdges + (expected.neighbors src).card,
              (checkedStats expected before).actualDirectedEdges + actual.card⟩ : ValidateStats) =
              checkedStats expected (before ++ [src]) := by
            rw [hsame]
            simp [checkedStats]
          have hlength : (before ++ [src]).length ≤ maxVertices := by
            rw [List.length_append, List.length_singleton]
            omega
          have hleft : maxVertices - (before ++ [src]).length = n := by
            rw [List.length_append, List.length_singleton]
            omega
          obtain ⟨result, e', hrest, hok, hchecked⟩ := ih hinv hlength
          rw [hleft] at hok hchecked
          rw [hstats, ← htimestamp]
          refine ⟨result, e', hrest, fun hall => ?_, fun hres => ?_⟩
          · rw [hok (List.forall_mem_cons.mp hall).2, List.append_assoc, List.singleton_append]
          · exact List.forall_mem_cons.mpr ⟨hagree.mp hsame, hchecked hres⟩
        · rw [if_pos hsame]
          refine ⟨_, _, rfl, fun hall => ?_, ?_⟩
          · exact absurd (hagree.mpr (List.forall_mem_cons.mp hall).1) hsame
          · rintro ⟨stats, hstats⟩
            cases hstats

/-- **What the validator decides.** In every state that a session can reach, `validate_person_knows`
accepts iff at the vertices it gets to, the first `maxVertices` in the order of the hash map, the file
and the store agree; and then it has counted their edges. -/
theorem validatePersonKnows_iff {config : LsmGraphConfig} {x₀ : Session}
    (hcreate : create config = some x₀) (hrun : Reaches step (fun _ _ => True) x₀ x)
    (o : IterationOrder) (expected : KnowsAdjacency) (maxVertices : Nat) :
    ∃ result e, validatePersonKnows o expected maxVertices x.engine = .ok result e ∧
      let checked := (o.order expected.keys).take maxVertices
      ((∃ stats, result = .ok stats) ↔
        ∀ src ∈ checked, KnowsAgree expected (edgeMap x.history) src) ∧
      ∀ stats, result = .ok stats → stats = checkedStats expected checked := by
  have hinv := inv_of_reaches hrun (inv_create hcreate)
  obtain ⟨result, e, hloop, hok, hchecked⟩ := @Inv.validateLoop_spec _ hinv expected maxVertices
    [] (o.order expected.keys) (Nat.zero_le _)
  have hsnapshot : Engine.currentSnapshot x.engine = .ok x.engine.timestamp x.engine := rfl
  refine ⟨result, e, (bind_of_ok hsnapshot).trans hloop, ⟨hchecked, fun hall => ⟨_, hok hall⟩⟩, ?_⟩
  rintro stats rfl
  exact Except.ok.inj (hok (hchecked ⟨stats, rfl⟩))

theorem validatePersonKnows_iff_small :
    ∃ x₀ x, create smallConfig = some x₀ ∧ run step (fun _ _ => True) x₀ smallRun = some x ∧
      ∃ result e, validatePersonKnows ⟨id, fun _ => .refl _⟩ (KnowsAdjacency.empty.insert 1 2) 5
          x.engine = .ok result e ∧
        ((∃ stats, result = .ok stats) ↔ ∀ src ∈ (id [1] : List VertexId).take 5,
          KnowsAgree (KnowsAdjacency.empty.insert 1 2) (edgeMap x.history) src) ∧
        ∀ stats, result = .ok stats →
          stats = checkedStats (KnowsAdjacency.empty.insert 1 2) ((id [1]).take 5) := by
  have hrun : ((create smallConfig).bind fun x₀ =>
      run step (fun _ _ => True) x₀ smallRun).isSome := by
    decide +kernel
  obtain ⟨x₀, x, h₀, hx⟩ := exists_run_of_isSome hrun
  exact ⟨x₀, x, h₀, hx, validatePersonKnows_iff h₀ (reaches_of_run hx) ⟨id, fun _ => .refl _⟩
    (KnowsAdjacency.empty.insert 1 2) 5⟩

end Session

/-! ## Import and validation -/

/-- **Loading the file** succeeds if every record is read, and relates the ids of a record to each other
in both directions. -/
theorem foldlM_addRecord {records : List (Except Base.BuildError (List String))}
    (hread : ∀ record ∈ records, ∃ columns row, record = .ok columns ∧
      indexRecord EdgeLabel.knows.asI32 true 0 1 columns = .ok row) (m : KnowsAdjacency) :
    ∃ expected, records.foldlM KnowsAdjacency.addRecord m = .ok expected ∧
      ∀ src dst, dst ∈ expected.neighbors src ↔ dst ∈ m.neighbors src ∨
        ∃ record a b, .ok record ∈ records ∧ (column record 0 >>= parseVertexId) = .ok a ∧
          (column record 1 >>= parseVertexId) = .ok b ∧ ((src = a ∧ dst = b) ∨ (src = b ∧ dst = a)) := by
  induction records generalizing m with
  | nil => exact ⟨m, rfl, by simp⟩
  | cons record records ih =>
      obtain ⟨⟨columns, row, rfl, hrow⟩, hrest⟩ := List.forall_mem_cons.mp hread
      obtain ⟨a, b, ha, hb, -⟩ := indexRecord_eq_ok.mp hrow
      have hadd : m.addRecord (.ok columns) = .ok ((m.insert a b).insert b a) :=
        Base.bind_eq_ok.mpr ⟨a, ha, Base.bind_eq_ok.mpr ⟨b, hb, rfl⟩⟩
      obtain ⟨expected, hfold, hmem⟩ := ih hrest ((m.insert a b).insert b a)
      refine ⟨expected, ?_, fun src dst => ?_⟩
      · rw [List.foldlM_cons]
        exact Base.bind_eq_ok.mpr ⟨_, hadd, hfold⟩
      · rw [hmem, KnowsAdjacency.mem_neighbors_insert, KnowsAdjacency.mem_neighbors_insert]
        constructor
        · rintro ((hrev | hfwd | hold) | ⟨record, a', b', hrecord, hids⟩)
          · exact Or.inr ⟨columns, a, b, List.mem_cons_self, ha, hb, Or.inr hrev⟩
          · exact Or.inr ⟨columns, a, b, List.mem_cons_self, ha, hb, Or.inl hfwd⟩
          · exact Or.inl hold
          · exact Or.inr ⟨record, a', b', List.mem_cons_of_mem _ hrecord, hids⟩
        · rintro (hold | ⟨record, a', b', hrecord, ha', hb', hids⟩)
          · exact Or.inl (Or.inr (Or.inr hold))
          · rcases List.mem_cons.mp hrecord with heq | hrecord
            · cases heq
              cases ha.symm.trans ha'
              cases hb.symm.trans hb'
              exact Or.inl (hids.elim (fun hfwd => Or.inr (Or.inl hfwd)) Or.inl)
            · exact Or.inr ⟨record, a', b', hrecord, ha', hb', hids⟩

/-- What is loaded from the file is what its import inserts. -/
theorem loadPersonKnowsAdjacency_of_run {root : String → Option Base.CsvFile} {stats : ImportStats}
    (h : (personKnowsFile.run root).result = .ok stats) :
    ∃ expected, loadPersonKnowsAdjacency root = .ok expected ∧
      ∀ src dst, dst ∈ expected.neighbors src ↔ personKnowsFile.Yields root src dst := by
  rw [personKnowsFile, TopologyFile.run] at h
  rw [loadPersonKnowsAdjacency]
  cases hfile : root "dynamic/person_knows_person_0_0.csv" with
  | none =>
      rw [hfile, importIndexEdgeFile] at h
      cases h
  | some file =>
      rw [hfile, importIndexEdgeFile] at h
      obtain ⟨expected, hfold, hmem⟩ := foldlM_addRecord (read_of_importRecords h) .empty
      refine ⟨expected, hfold, fun src dst => ?_⟩
      rw [hmem, personKnowsFile, TopologyFile.Yields]
      constructor
      · rintro (hnone | ⟨record, a, b, hrecord, ha, hb, hids⟩)
        · exact absurd hnone (Finset.notMem_empty dst)
        · exact ⟨file, record, a, b, hfile, hrecord, ha, hb, hids.imp_right fun hrev => ⟨rfl, hrev⟩⟩
      · rintro ⟨file', record, a, b, hfile', hrecord, ha, hb, hids⟩
        cases hfile.symm.trans hfile'
        exact Or.inr ⟨record, a, b, hrecord, ha, hb, hids.imp_right And.right⟩

/-- A topology import has imported its first file. -/
theorem run_of_importSnbTopology {root : String → Option Base.CsvFile} {stats : ImportStats}
    (h : (importSnbTopology root).result = .ok stats) :
    ∃ stats', (personKnowsFile.run root).result = .ok stats' := by
  rw [importSnbTopology, topologyFiles, importFiles] at h
  cases hrun : (personKnowsFile.run root).result with
  | error e =>
      rw [hrun] at h
      cases h
  | ok stats' => exact ⟨stats', rfl⟩

/-- No other file has edges of type `Knows`. -/
theorem eq_personKnowsFile : ∀ file ∈ topologyFiles,
    file.edgeLabel.asI32 = EdgeLabel.knows.asI32 → file = personKnowsFile := by
  decide

namespace Session

variable {x y : Session}

/-- A directory in which persons 1 and 2 know each other, and no other file has records. -/
def oneFriendship (path : String) : Option Base.CsvFile :=
  if path = "dynamic/person_knows_person_0_0.csv" then
    some ⟨["Person.id", "Person.id", "creationDate"], [.ok ["1", "2", "5"]]⟩
  else
    some ⟨["id", "place", "moderator", "creator", "Forum.id", "replyOfPost", "replyOfComment",
      "isPartOf", "hasType", "isSubclassOf"], []⟩

/-- The steps of its import, with a flush in the background. -/
def oneFriendshipRun : List Op :=
  [.insertEdge 1 2 1, .insertEdge 2 1 1, .beginFlushActive, .runFlushTask 0, .runFlushTask 1,
    .finishFlushActive none]

/-- A compaction that a fault stops, and a crash. -/
def quietRun : List Op :=
  [.compactL0ToL1 (some { after := 2, durable := false }), .reopen smallConfig]

/-- The store before and after the import, and at the end. -/
def importedOnce : Option (Session × Session × Session) :=
  (create smallConfig).bind fun x₀ => (run step (fun _ _ => True) x₀ oneFriendshipRun).bind fun x =>
    (run step (fun _ op => Quiet op) x quietRun).bind fun y =>
      if x.client = .flushed then some (x₀, x, y) else none

theorem importedOnce_spec {x₀ : Session} (h : importedOnce = some (x₀, x, y)) :
    create smallConfig = some x₀ ∧
      x₀.Imports x [⟨1, 2, 1, .empty⟩, ⟨2, 1, 1, .empty⟩] ∧
      Reaches step (fun _ op => Quiet op) x y := by
  obtain ⟨x₀', h₀, h⟩ := Option.bind_eq_some_iff.mp h
  obtain ⟨x', hx, h⟩ := Option.bind_eq_some_iff.mp h
  obtain ⟨y', hy, h⟩ := Option.bind_eq_some_iff.mp h
  split at h
  · rename_i hclient
    cases h
    exact ⟨h₀, ⟨oneFriendshipRun, none, rfl, hx, hclient⟩, reaches_of_run hy⟩
  · cases h

end Session

end LsmGraph
