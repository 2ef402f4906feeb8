import LsmGraph.Library.Binary64
import LsmGraph.Library.TopK
import LsmGraph.Session.OneVersion
import LsmGraph.Session.Probes
import LsmGraph.Session.Refinement

/-! # Compaction by score

`compact_best_l0_partition_by_score` compacts the part of `L0` that lookups suffer from most. It takes
the counters of each partition, computes a score in floating point, and merges the files that overlap
the sources of the best partition into `L1`. A call picks a partition of the greatest score and moves
exactly the files that overlap it, and no lookup changes (`callCompactBest_spec`). Each call that picks
something moves files, so calls cannot go on for ever (`scoreRun_spec`). -/

namespace LsmGraph

open Binary64 CsrReader ErrorState KeyedSort Transition

/-! ## Scores -/

/-- The settings of the score. -/
structure L0RaConfig where
  l0RaMinQueries : Nat := 10
  l0RaMinL0Segments : Nat := 2
  l0RaMinScore : ℚ := 10

/-- `n as f64`. -/
def asF64 (n : Nat) : ℚ := roundTo53 n

/-- `a / b` on positive numbers. -/
def divF64 (a b : ℚ) : ℚ := roundRat (a / b)

/-- `a * b` on positive numbers. -/
def mulF64 (a b : ℚ) : ℚ := roundRat (a * b)

structure L0PartitionSnapshot extends L0PartitionMetric where
  key : L0PartitionKey
  avgCandidateSegments : ℚ
  offsetCacheMissRate : ℚ

/-- A quotient of two counters. -/
def rateF64 (a b : Nat) : ℚ := if a = 0 ∨ b = 0 then 0 else divF64 (asF64 a) (asF64 b)

def L0PartitionMetric.snapshot (metric : L0PartitionMetric) (key : L0PartitionKey) :
    L0PartitionSnapshot where
  toL0PartitionMetric := metric
  key := key
  avgCandidateSegments := rateF64 metric.candidateSegments metric.queryCount
  offsetCacheMissRate :=
    rateF64 metric.offsetCacheMisses (metric.offsetCacheHits + metric.offsetCacheMisses)

/-- In which order the map of partitions is iterated over. -/
structure PartitionOrder where
  order : List (L0PartitionKey × L0PartitionMetric) → List (L0PartitionKey × L0PartitionMetric)
  perm : ∀ entries, (order entries).Perm entries

def Metrics.l0PartitionSnapshots (μ : Metrics) (o : PartitionOrder) : List L0PartitionSnapshot :=
  sortByKey (fun s : L0PartitionSnapshot =>
      toLex (s.key.srcLabel, toLex (s.key.edgeType, s.key.rangeStart)))
    ((o.order μ.l0PartitionMetrics).map fun entry => entry.2.snapshot entry.1)

def estimatedMetaBytes (m : CsrSegmentMeta) : Nat :=
  if 0 < m.segmentBytes then m.segmentBytes else m.edgeCount * EdgeRecord.size

/-- The target of a compaction of a partition. -/
def L0PartitionKey.target (key : L0PartitionKey) : L0CompactionTarget where
  srcLabel := key.srcLabel
  edgeType := some key.edgeType
  minSrc := some key.rangeStart
  maxSrc := some key.rangeEnd

structure PickedL0Partition where
  key : L0PartitionKey
  score : ℚ
  estimatedRewriteBytes : Nat
  selectedL0Segments : Nat
  queryCount : Nat
  avgCandidateSegments : ℚ
  offsetCacheMissRate : ℚ

/-- The score of a partition for which `bytes` would be rewritten. -/
def L0PartitionSnapshot.score (snapshot : L0PartitionSnapshot) (bytes : Nat) : ℚ :=
  let rewriteMib := max (asF64 bytes / 1048576) 1
  divF64 (mulF64 (mulF64 (asF64 snapshot.queryCount) (max snapshot.avgCandidateSegments 1))
    (roundRat (1 + snapshot.offsetCacheMissRate))) rewriteMib

def scoreL0Partition (ra : L0RaConfig) (snapshot : L0PartitionSnapshot)
    (l0Files : List CsrSegmentMeta) : Option PickedL0Partition :=
  if snapshot.queryCount < ra.l0RaMinQueries then none
  else
    let selected := l0Files.filter fun m => targetMatchesMeta m snapshot.key.target
    if selected.length < ra.l0RaMinL0Segments then none
    else
      let estimatedRewriteBytes := (selected.map estimatedMetaBytes).sum
      let score := snapshot.score estimatedRewriteBytes
      if score < ra.l0RaMinScore then none
      else some
        { key := snapshot.key
          score
          estimatedRewriteBytes
          selectedL0Segments := selected.length
          queryCount := snapshot.queryCount
          avgCandidateSegments := snapshot.avgCandidateSegments
          offsetCacheMissRate := snapshot.offsetCacheMissRate }

/-! ## The call -/

structure L0CompactionDecision extends PickedL0Partition where
  outputs : List CsrSegmentMeta

/-- The partitions that may be picked. -/
def l0Candidates (ra : L0RaConfig) (o : PartitionOrder) (μ : Metrics)
    (l0Files : List CsrSegmentMeta) : List PickedL0Partition :=
  (μ.l0PartitionSnapshots o).filterMap fun snapshot => scoreL0Partition ra snapshot l0Files

namespace Engine

def pickL0PartitionByScore (ra : L0RaConfig) (o : PartitionOrder) (μ : Metrics) (e : Engine) :
    Option PickedL0Partition :=
  let l0Files := e.current.level L0.toNat
  if l0Files = [] then none
  else lastMaxBy PickedL0Partition.score (l0Candidates ra o μ l0Files)

def compactBestL0PartitionByScore (ra : L0RaConfig) (o : PartitionOrder) (μ : Metrics) :
    EngineM (Option L0CompactionDecision) := do
  match pickL0PartitionByScore ra o μ (← get) with
  | none => pure none
  | some pick =>
      let outputs ← compactL0RangeToL1 pick.key.srcLabel (some pick.key.edgeType)
        pick.key.rangeStart pick.key.rangeEnd
      pure (some { toPickedL0Partition := pick, outputs })

variable {e e' : Engine}

/-- A pick is a candidate of the greatest score, and there is one unless there is no candidate. -/
theorem pickL0PartitionByScore_spec (ra : L0RaConfig) (o : PartitionOrder) (μ : Metrics) (e : Engine) :
    match pickL0PartitionByScore ra o μ e with
    | none => e.current.level 0 = [] ∨ l0Candidates ra o μ (e.current.level 0) = []
    | some pick => pick ∈ l0Candidates ra o μ (e.current.level 0) ∧
        ∀ other ∈ l0Candidates ra o μ (e.current.level 0), other.score ≤ pick.score := by
  rw [pickL0PartitionByScore]
  by_cases hempty : e.current.level 0 = []
  · rw [if_pos (show e.current.level L0.toNat = [] from hempty)]
    exact Or.inl hempty
  · rw [if_neg (show ¬e.current.level L0.toNat = [] from hempty)]
    have hmax := lastMaxBy_spec PickedL0Partition.score (l0Candidates ra o μ (e.current.level 0))
    show match lastMaxBy PickedL0Partition.score (l0Candidates ra o μ (e.current.level 0)) with
      | none => _
      | some pick => _
    split at hmax
    · rename_i hnone
      rw [hnone]
      exact Or.inr hmax
    · rename_i hsome
      rw [hsome]
      exact hmax

/-- A partial compaction takes the files that match its target out of `L0`, and no others. -/
theorem compactL0TargetToL1_l0 (h : e.WF) (hcoh : Coherent e.records) (hfault : e.fault = none)
    {target : L0CompactionTarget} {outputs : List CsrSegmentMeta}
    (hrun : compactL0TargetToL1 target e = .ok outputs e') :
    (e'.current.level 0).Perm ((e.current.level 0).filter fun m => !targetMatchesMeta m target) := by
  rcases waitForFlushes_cases h with ⟨hwait, -⟩ | ⟨hwait, hrunning⟩
  · rw [compactL0TargetToL1, bind_of_error hwait] at hrun
    cases hrun
  rw [compactL0TargetToL1, bind_of_ok hwait, bind_of_ok get_apply] at hrun
  split at hrun
  · rename_i hl0
    cases hrun
    have hnone : ∀ m ∈ e.current.level 0, !targetMatchesMeta m target := fun m hm => by
      have hnot := List.filter_eq_nil_iff.mp (show selectL0 e.current target = [] from hl0) m hm
      simpa using hnot
    rw [List.filter_eq_self.mpr hnone]
    exact List.Perm.refl _
  rename_i hl0
  have hwf := (waited_spec h hrunning).1
  have hcut : ∀ l : List EdgeRecord, l ≠ [] →
      [] ∉ splitCompactionSegments l e.waited.config.segmentTargetBytes ∧
        (splitCompactionSegments l e.waited.config.segmentTargetBytes).flatten.Perm l := fun l _ =>
    ⟨nil_notMem_splitCompactionSegments _ _, perm_splitCompactionSegments _ _⟩
  have hsub := (replaces_target hwf (selectL0 e.waited.current target)
    (selectL1 e.waited.current target (selectL0 e.waited.current target))
    (fun m hm => List.mem_of_mem_filter hm) (fun m hm => List.mem_of_mem_filter hm)).mem_inputs
  obtain ⟨-, hcurrent, -⟩ := compactFiles_completes (e := e.waited) hwf hcoh hfault
    _ _ (List.append_ne_nil_of_left_ne_nil hl0 _) hcut hsub hrun
  rw [hcurrent, Version.level_zero_afterTargetCompaction]
  refine (perm_sortByKey _ _).trans (List.Perm.of_eq (List.filter_congr fun m hm => ?_))
  have hknown : ∀ m ∈ e.current.level 0, m ∈ e.knownFiles := fun m hm =>
    Or.inl (Version.mem_files.mpr ⟨0, hm⟩)
  -- the ids of the files selected stand for the files
  have hiff : m.fileId ∈ (selectL0 e.current target).map CsrSegmentMeta.fileId ↔
      targetMatchesMeta m target = true := by
    constructor
    · intro hid
      obtain ⟨m', hm', heq⟩ := List.mem_map.mp hid
      obtain ⟨hlevel, hmatches⟩ := List.mem_filter.mp hm'
      rwa [← h.intact.injOn (hknown m' hlevel) (hknown m hm) heq]
    · exact fun hmatches => List.mem_map_of_mem (List.mem_filter.mpr ⟨hm, hmatches⟩)
  show decide (m.fileId ∉ (selectL0 e.current target).map CsrSegmentMeta.fileId) = _
  rw [decide_not, ← Bool.decide_coe (targetMatchesMeta m target), decide_eq_decide.mpr hiff]

end Engine

namespace Session

variable {x y z : Session}

/-- A call of `compact_best_l0_partition_by_score` that succeeds. -/
def callCompactBest (ra : L0RaConfig) (o : PartitionOrder) (μ : Metrics) (x : Session) :
    Option (Option L0CompactionDecision × Session) :=
  if x.client = .flushing then none
  else
    match Engine.compactBestL0PartitionByScore ra o μ x.engine with
    | .ok none _ => some (none, x)
    | .ok (some decision) e => some (some decision, { x with engine := e, client := .idle })
    | .error _ _ => none

/-- What a successful call has done: nothing, or the compaction of its pick. -/
theorem callCompactBest_cases {ra : L0RaConfig} {o : PartitionOrder} {μ : Metrics}
    {result : Option L0CompactionDecision} (hcall : callCompactBest ra o μ x = some (result, y)) :
    (Engine.pickL0PartitionByScore ra o μ x.engine = none ∧ result = none ∧ y = x) ∨
      ∃ pick outputs e, Engine.pickL0PartitionByScore ra o μ x.engine = some pick ∧
        Engine.compactL0TargetToL1 pick.key.target x.engine = .ok outputs e ∧
        result = some ⟨pick, outputs⟩ ∧ x.client ≠ .flushing ∧
        y = { x with engine := e, client := .idle } := by
  rw [callCompactBest, Option.ite_none_left_eq_some] at hcall
  obtain ⟨hclient, hcall⟩ := hcall
  rw [Engine.compactBestL0PartitionByScore, bind_of_ok get_apply] at hcall
  cases hpick : Engine.pickL0PartitionByScore ra o μ x.engine with
  | none =>
      rw [hpick] at hcall
      cases hcall
      exact Or.inl ⟨rfl, rfl, rfl⟩
  | some pick =>
      rw [hpick] at hcall
      cases hrun : Engine.compactL0TargetToL1 pick.key.target x.engine with
      | error err e =>
          dsimp only at hcall
          rw [bind_of_error (show Engine.compactL0RangeToL1 _ _ _ _ x.engine = _ from hrun)] at hcall
          cases hcall
      | ok outputs e =>
          dsimp only at hcall
          rw [bind_of_ok (show Engine.compactL0RangeToL1 _ _ _ _ x.engine = _ from hrun)] at hcall
          cases hcall
          exact Or.inr ⟨pick, outputs, e, rfl, hrun, rfl, hclient, rfl⟩

/-- A compaction that succeeds is a step. -/
theorem step_compactL0RangeToL1 (h : x.Inv) {key : L0PartitionKey} {outputs : List CsrSegmentMeta}
    {e : Engine} (hclient : x.client ≠ .flushing)
    (hrun : Engine.compactL0TargetToL1 key.target x.engine = .ok outputs e) :
    x.step (.compactL0RangeToL1 none key.srcLabel (some key.edgeType) key.rangeStart key.rangeEnd) =
      some { x with engine := e, client := .idle } := by
  have hsame : x.withFault none = x.engine := by
    rw [withFault, ← h.fault_eq]
  have houtcome := Engine.compactL0TargetToL1_outcome h.wf h.tracks.coherent key.target
  rw [hrun] at houtcome
  have hfault : e.fault = none := houtcome.2.2.2 h.fault_eq
  rw [step, if_neg hclient, hsame]
  show x.afterMaintenance .idle (Engine.compactL0TargetToL1 key.target x.engine) = _
  rw [hrun, afterMaintenance]
  congr 2
  rw [← hfault]

/-- A lookup of any source finds the same in both states. -/
def SameLookups (x y : Session) : Prop :=
  ∀ src, ∃ edges e e', getNeighborsNow src x.engine = .ok edges e ∧
    getNeighborsNow src y.engine = .ok edges e'

/-- States with one history answer lookups alike. -/
theorem sameLookups_of_history (hx : x.Inv) (hy : y.Inv) (hhistory : y.history = x.history) :
    SameLookups x y := by
  intro src
  obtain ⟨edges, e, hrun, hlists⟩ := hx.lists src
  obtain ⟨edges', e', hrun', hlists'⟩ := hy.lists src
  rw [hhistory] at hlists'
  have hmem : ∀ r, r ∈ edges ↔ r ∈ edges' := fun r => (hlists.mem_iff r).trans (hlists'.mem_iff r).symm
  have hsame : edges = edges' :=
    eq_of_ascending_of_mem_iff hlists.ascending hlists'.ascending hmem
  exact ⟨edges, e, e', hrun, hsame ▸ hrun'⟩

/-- The files of `L0`. -/
def l0Files (x : Session) : List CsrSegmentMeta := x.engine.current.level 0

/-- **Step lemma.** A call that picks a partition compacts a best one, and takes the files that overlap
it out of `L0`. -/
theorem callCompactBest_some (h : x.Inv) {ra : L0RaConfig} {o : PartitionOrder} {μ : Metrics}
    {d : L0CompactionDecision} (hcall : callCompactBest ra o μ x = some (some d, y)) :
    y.Inv ∧ y.history = x.history ∧
      (d.toPickedL0Partition ∈ l0Candidates ra o μ x.l0Files ∧
        ∀ other ∈ l0Candidates ra o μ x.l0Files, other.score ≤ d.score) ∧
      y.l0Files.Perm (x.l0Files.filter fun m => !targetMatchesMeta m d.key.target) := by
  rcases callCompactBest_cases hcall with ⟨-, hnone, -⟩ | ⟨pick, outputs, e, hpick, hrun, hd, hclient, rfl⟩
  · cases hnone
  · cases hd
    have hbest := Engine.pickL0PartitionByScore_spec ra o μ x.engine
    rw [hpick] at hbest
    exact ⟨inv_step h (step_compactL0RangeToL1 h hclient hrun), rfl, hbest,
      Engine.compactL0TargetToL1_l0 h.wf h.tracks.coherent h.fault_eq hrun⟩

/-- What is said of the pick of a candidate. -/
theorem scoreL0Partition_eq_some {ra : L0RaConfig} {snapshot : L0PartitionSnapshot}
    {l0Files : List CsrSegmentMeta} {pick : PickedL0Partition}
    (h : scoreL0Partition ra snapshot l0Files = some pick) :
    pick.key = snapshot.key ∧ ra.l0RaMinL0Segments ≤ pick.selectedL0Segments ∧
      pick.selectedL0Segments = (l0Files.filter fun m => targetMatchesMeta m pick.key.target).length := by
  rw [scoreL0Partition, Option.ite_none_left_eq_some] at h
  obtain ⟨-, h⟩ := h
  dsimp only at h
  rw [Option.ite_none_left_eq_some, Option.ite_none_left_eq_some] at h
  obtain ⟨hsegments, -, h⟩ := h
  cases h
  exact ⟨rfl, not_lt.mp hsegments, rfl⟩

/-- Two flushes of the same source. -/
def twoFlushes : List Op :=
  [.insertEdge 1 2 1, .insertEdge 1 3 1, .runFlushTask 0, .runFlushTask 1]

/-- Counters of two partitions, of which one was not queried enough. -/
def queried : Metrics where
  l0PartitionMetrics :=
    [ (⟨0, 1, 0, 0xFFFFF⟩, { queryCount := 20, candidateSegments := 40 }),
      (⟨0, 2, 0, 0xFFFFF⟩, { queryCount := 9, candidateSegments := 80 }) ]

def inMapOrder : PartitionOrder := ⟨id, fun _ => .refl _⟩

/-- A call after the two flushes picks both files. -/
theorem exists_call_two : ∃ x₀ x d y, create smallConfig = some x₀ ∧
    run step (fun _ _ => True) x₀ twoFlushes = some x ∧
      callCompactBest {} inMapOrder queried x = some (some d, y) := by
  have hall : ((create smallConfig).bind fun x₀ =>
      (run step (fun _ _ => True) x₀ twoFlushes).bind fun x =>
        (callCompactBest {} inMapOrder queried x).bind Prod.fst).isSome := by decide +kernel
  obtain ⟨d, hd⟩ := Option.isSome_iff_exists.mp hall
  obtain ⟨x₀, h₀, hd⟩ := Option.bind_eq_some_iff.mp hd
  obtain ⟨x, hx, hd⟩ := Option.bind_eq_some_iff.mp hd
  obtain ⟨⟨result, y⟩, hcall, rfl⟩ := Option.bind_eq_some_iff.mp hd
  exact ⟨x₀, x, d, y, h₀, hx, hcall⟩

/-- Calls one after the other, with whatever counters each of them meets, each picking a partition. -/
inductive ScoreRun (ra : L0RaConfig) : Session → List L0CompactionDecision → Session → Prop
  | nil (x : Session) : ScoreRun ra x [] x
  | cons {x y z : Session} {o : PartitionOrder} {μ : Metrics} {d : L0CompactionDecision}
      {ds : List L0CompactionDecision} (call : callCompactBest ra o μ x = some (some d, y))
      (calls : ScoreRun ra y ds z) : ScoreRun ra x (d :: ds) z

/-- The run lemma. -/
theorem ScoreRun.spec {ra : L0RaConfig} {ds : List L0CompactionDecision} (hrun : ScoreRun ra x ds z)
    (h : x.Inv) :
    z.Inv ∧ z.history = x.history ∧
      (ds.map fun d => d.selectedL0Segments).sum + z.l0Files.length = x.l0Files.length ∧
      ∀ d ∈ ds, ra.l0RaMinL0Segments ≤ d.selectedL0Segments := by
  induction hrun with
  | nil x => exact ⟨h, rfl, Nat.zero_add _, nofun⟩
  | cons call calls ih =>
      obtain ⟨hy, hhistory, ⟨hmem, -⟩, hl0⟩ := callCompactBest_some h call
      obtain ⟨hz, hhistory', hsum, hmin⟩ := ih hy
      obtain ⟨s, -, hscore⟩ := List.mem_filterMap.mp hmem
      obtain ⟨-, hsegments, hselected⟩ := scoreL0Partition_eq_some hscore
      refine ⟨hz, hhistory'.trans hhistory, ?_, List.forall_mem_cons.mpr ⟨hsegments, hmin⟩⟩
      rw [List.map_cons, List.sum_cons, Nat.add_assoc, hsum, hl0.length_eq, hselected]
      exact (List.length_eq_length_filter_add _).symm

end Session

end LsmGraph
